import Everywhere.Storage.Exchange

/-!
# The repair of a staging file

What is in a staging file may be of an earlier transfer, or damaged. `missingFrom` keeps the blocks that are right, takes
others from the destination or from a file that is like it, and lists the rest; `put` writes a block, if it is the one of the
manifest; `finishChecked` compares the whole with the manifest.

* `block_repair` — **the listed blocks are enough**: with them, in any order, the staging file is the source, and nothing
  but a block of the source is ever written.
-/

namespace Everywhere

open Library

variable {P : Platform} {m : Manifest} {bytes data s : Bytes} {i j k len : ℕ}

/-! ### The blocks of some bytes -/

theorem length_blocksOf : (blocksOf s).length = (s.length + blockSize - 1) / blockSize := by
  rw [blocksOf, List.length_map, List.length_range]

theorem getElem?_blocksOf (hk : k < (s.length + blockSize - 1) / blockSize) :
    (blocksOf s)[k]? = some ((s.drop (k * blockSize)).take blockSize) := by
  rw [blocksOf, List.getElem?_map, List.getElem?_range hk]
  rfl

/-- Pieces of one size, one after the other. -/
theorem flatten_pieces {α : Type} (l : List α) (size n : ℕ) :
    ((List.range n).map fun k => (l.drop (k * size)).take size).flatten = l.take (n * size) := by
  induction n with
  | zero => simp
  | succ n ih =>
    rw [List.range_succ, List.map_append, List.flatten_append, ih, Nat.succ_mul, List.take_add]
    simp

/-- The pieces reach the end, and no piece begins behind it. -/
theorem pieces_reach {n size : ℕ} (hsize : 0 < size) :
    n ≤ (n + size - 1) / size * size ∧ ∀ k < (n + size - 1) / size, k * size < n := by
  have hdiv := Nat.div_add_mod (n + size - 1) size
  have hmod := Nat.mod_lt (n + size - 1) hsize
  rw [Nat.mul_comm] at hdiv
  refine ⟨by omega, ?_⟩
  intro k hk
  have hmul := Nat.mul_le_mul_right size (Nat.succ_le_of_lt hk)
  rw [Nat.succ_mul] at hmul
  omega

theorem blockSize_pos : 0 < blockSize := by decide

/-- **The blocks are the bytes.** -/
theorem flatten_blocksOf (s : Bytes) : (blocksOf s).flatten = s := by
  rw [blocksOf, flatten_pieces]
  exact List.take_of_length_le (pieces_reach blockSize_pos).1

theorem blockLen_ofBytes (P : Platform) (hk : k < (blocksOf s).length) :
    blockLen (Manifest.ofBytes P s) k = .ok (min (s.length - k * blockSize) blockSize) := by
  have hlt : k < (Manifest.ofBytes P s).blocks.length := by rwa [Manifest.ofBytes, List.length_map]
  rw [blockLen, ensure, if_pos hlt]
  rfl

/-- Where a block stands, and how long it is. -/
theorem block_bounds (hk : k < (blocksOf s).length) : k * blockSize < s.length ∧
    k * blockSize + min (s.length - k * blockSize) blockSize = min ((k + 1) * blockSize) s.length := by
  rw [length_blocksOf] at hk
  have hstart := (pieces_reach blockSize_pos).2 k hk
  refine ⟨hstart, ?_⟩
  rw [Nat.succ_mul]
  generalize blockSize = size at *
  omega

theorem length_block (s : Bytes) (k : ℕ) :
    ((s.drop (k * blockSize)).take blockSize).length = min (s.length - k * blockSize) blockSize := by
  rw [List.length_take, List.length_drop, Nat.min_comm]

/-- A block ends where the bytes do. -/
theorem take_block (s : Bytes) (k : ℕ) : (s.drop (k * blockSize)).take (min (s.length - k * blockSize) blockSize) =
    (s.drop (k * blockSize)).take blockSize := by
  rw [← List.length_drop, Nat.min_comm, ← List.take_take, List.take_of_length_le (le_refl _)]

/-! ### Right blocks -/

/-- A right block is the block of the source, if no other bytes have its hash. -/
theorem BlockOk.block (hown : ∀ b ∈ blocksOf s, ∀ b', P.blake3 b' = P.blake3 b → b' = b)
    (h : BlockOk P (Manifest.ofBytes P s) bytes k) :
    k < (blocksOf s).length ∧ k * blockSize + min (s.length - k * blockSize) blockSize ≤ bytes.length ∧
      (bytes.drop (k * blockSize)).take (min (s.length - k * blockSize) blockSize) =
        (s.drop (k * blockSize)).take blockSize := by
  obtain ⟨len, b, hlen, hread, hhash⟩ := h
  have hk : k < (blocksOf s).length := by
    have hlt := (List.getElem?_eq_some_iff.mp hhash).1
    rwa [Manifest.ofBytes, List.length_map] at hlt
  rw [blockLen_ofBytes P hk] at hlen
  injection hlen with hlen
  subst hlen
  rw [readExact] at hread
  split_ifs at hread with hle
  refine ⟨hk, hle, ?_⟩
  have hblock := getElem?_blocksOf (by rwa [← length_blocksOf])
  rw [Manifest.ofBytes, List.getElem?_map, hblock, Option.map_some] at hhash
  rw [Option.some.inj hread]
  exact hown _ (List.mem_of_getElem? hblock) b (Option.some.inj hhash).symm

/-- **Right blocks make the source**, if no other bytes have their hashes. -/
theorem eq_of_blockOk_of (hown : ∀ b ∈ blocksOf s, ∀ b', P.blake3 b' = P.blake3 b → b' = b) (hlen : bytes.length ≤ s.length)
    (h : ∀ k < (blocksOf s).length, BlockOk P (Manifest.ofBytes P s) bytes k) : bytes = s := by
  have hlength : bytes.length = s.length := by
    by_cases hempty : (blocksOf s).length = 0
    · have hs : s.length = 0 := by
        have hreach := (@pieces_reach s.length _ blockSize_pos).1
        rw [← length_blocksOf, hempty] at hreach
        omega
      omega
    · -- the last block ends where the source does
      have hlast : (blocksOf s).length - 1 < (blocksOf s).length := by omega
      obtain ⟨-, hle, -⟩ := (h _ hlast).block hown
      have hend := (block_bounds hlast).2
      have hreach := (@pieces_reach s.length _ blockSize_pos).1
      rw [← length_blocksOf] at hreach
      rw [Nat.sub_add_cancel (by omega)] at hend
      generalize blockSize = size at *
      omega
  have hblocks : blocksOf bytes = blocksOf s := by
    rw [blocksOf, blocksOf, hlength]
    refine List.map_congr_left ?_
    intro k hk
    rw [List.mem_range, ← length_blocksOf] at hk
    obtain ⟨-, -, hblock⟩ := (h k hk).block hown
    rw [← hblock, ← hlength, take_block]
  rw [← flatten_blocksOf bytes, hblocks, flatten_blocksOf]

theorem eq_of_blockOk (hinj : Function.Injective P.blake3) (hlen : bytes.length ≤ s.length)
    (h : ∀ k < (blocksOf s).length, BlockOk P (Manifest.ofBytes P s) bytes k) : bytes = s :=
  eq_of_blockOk_of (fun _ _ _ heq => hinj heq) hlen h

/-! ### Writing -/

/-- Receive a block: it is checked, written, and brought to the disk. -/
def put (P : Platform) (m : Manifest) (finished : Bool) (index : ℕ) (data : Bytes) : Fallible Error PartFile Unit := do
  ensure (finished = false) "receiver already complete"
  Fallible.act fun s => match s.write P m index data with
    | .ok s' => (.ok (), s')
    | .error e => (.error e, s)
  Fallible.act fun s => (.ok (), s.sync)

/-- The file from which blocks are reused: the destination, and another one where there is none. -/
def existing (target basis : Option Bytes) : Option Bytes :=
  match target with
  | some bytes => some bytes
  | none => basis

/-- The check of the staging file before it is published. -/
def checkPart (P : Platform) (m : Manifest) (s : PartFile) : Result Unit := do
  ensure (s.part.length ≤ maxSize) "file exceeds 1 TiB alpha limit"
  ensure (Manifest.ofBytes P s.part = m) "incomplete or corrupt transfer"

/-- What is written where a block of the manifest is put. -/
theorem run_put {t t' : PartFile} (h : t.write P m i data = .ok t') :
    (put P m false i data).run t = (.ok (), t'.sync) := by
  simp only [put, ensure, if_pos, Fallible.run_bind, Fallible.lift_eq, Fallible.run_ofExcept, Fallible.run_act, h]

/-- A refused block changes nothing. -/
theorem run_put_refused {t : PartFile} {e : Error} (finished : Bool) (h : t.write P m i data = .error e) :
    ∃ e', (put P m finished i data).run t = (.error e', t) := by
  by_cases hfinished : finished = false
  · refine ⟨e, ?_⟩
    simp only [put, ensure, if_pos hfinished, Fallible.run_bind, Fallible.lift_eq, Fallible.run_ofExcept,
      Fallible.run_act, h]
  · refine ⟨.message "receiver already complete", ?_⟩
    simp only [put, ensure, if_neg hfinished, Fallible.run_bind, Fallible.lift_eq, Fallible.run_ofExcept]

theorem write_ok {t : PartFile} (hlen : blockLen m i = .ok data.length) (hhash : m.blocks[i]? = some (P.blake3 data)) :
    t.write P m i data = .ok { t with part := writeAt t.part (i * blockSize) data } := by
  rw [PartFile.write, hlen]
  change (ensure (data.length = data.length) _ >>= _) = _
  rw [ensure, if_pos rfl]
  change (ensure (m.blocks[i]? = some (P.blake3 data)) _ >>= _) = _
  rw [ensure, if_pos hhash]
  rfl

/-- A block that may be written is the block of the source, if hashes do not collide. -/
theorem block_of_write {t t' : PartFile} (hinj : Function.Injective P.blake3)
    (h : t.write P (Manifest.ofBytes P s) i data = .ok t') : (blocksOf s)[i]? = some data := by
  obtain ⟨-, hhash, -⟩ := Exchange.write_eq_ok h
  rw [Manifest.ofBytes, List.getElem?_map] at hhash
  obtain ⟨b, hb, hbytes⟩ := Option.map_eq_some_iff.mp hhash
  rw [hb, hinj hbytes]

/-- How a staging file of a source gets better. -/
structure Improves (P : Platform) (s : Bytes) (t t' : PartFile) : Prop where
  /-- It does not get longer than the source. -/
  length : t.part.length ≤ s.length → t'.part.length ≤ s.length
  /-- Right blocks stay right. -/
  blocks : ∀ j, BlockOk P (Manifest.ofBytes P s) t.part j → BlockOk P (Manifest.ofBytes P s) t'.part j

theorem Improves.refl (t : PartFile) : Improves P s t t := ⟨id, fun _ => id⟩

theorem Improves.trans {t t' t'' : PartFile} (h : Improves P s t t') (h' : Improves P s t' t'') : Improves P s t t'' :=
  ⟨h'.length ∘ h.length, fun j => h'.blocks j ∘ h.blocks j⟩

/-- **A write makes one block right.** -/
theorem improves_write {t t' : PartFile} (h : t.write P (Manifest.ofBytes P s) i data = .ok t') :
    Improves P s t t'.sync ∧ BlockOk P (Manifest.ofBytes P s) t'.sync.part i := by
  obtain ⟨hlen, hhash, rfl⟩ := Exchange.write_eq_ok h
  refine ⟨⟨?_, fun j hj => blockOk_writeAt hlen hhash (.inr hj)⟩, blockOk_writeAt hlen hhash (.inl rfl)⟩
  intro hle
  have hk : i < (blocksOf s).length := by
    have hlt := (List.getElem?_eq_some_iff.mp hhash).1
    rwa [Manifest.ofBytes, List.length_map] at hlt
  have hend := (block_bounds hk).2
  rw [blockLen_ofBytes P hk] at hlen
  injection hlen with hlen
  rw [PartFile.sync, length_writeAt, ← hlen]
  exact max_le hle (hend.trans_le (min_le_right _ _))

/-! ### The loop -/

theorem validBlock_eq_some (h : validBlock P m bytes i = some data) : BlockOk P m bytes i ∧
    blockLen m i = .ok data.length ∧ m.blocks[i]? = some (P.blake3 data) := by
  rw [validBlock] at h
  cases hlen : blockLen m i with
  | error e =>
    rw [hlen] at h
    cases h
  | ok len =>
    simp only [hlen] at h
    obtain ⟨hread, hhash⟩ := Option.filter_eq_some_iff.mp h
    have hblock : m.blocks[i]? = some (P.blake3 data) := of_decide_eq_true hhash
    refine ⟨⟨len, data, hlen, hread, hblock⟩, ?_, hblock⟩
    rw [readExact] at hread
    split_ifs at hread with hle
    rw [← Option.some.inj hread, List.length_take, List.length_drop, Nat.min_eq_left (by omega)]

/-- **Every block that is gone through is right, or is listed.** -/
theorem missingFrom_spec (file : Option Bytes) (l : List ℕ) (t : PartFile) : ∃ t' missing,
    missingFrom P (Manifest.ofBytes P s) file l t = .ok (t', missing) ∧ missing.Sublist l ∧ Improves P s t t' ∧
      ∀ j ∈ l, j ∉ missing → BlockOk P (Manifest.ofBytes P s) t'.part j := by
  induction l generalizing t with
  | nil => exact ⟨t, [], rfl, List.Sublist.refl _, .refl t, fun j hj => absurd hj List.not_mem_nil⟩
  | cons index rest ih =>
    rw [missingFrom]
    cases hvalid : validBlock P (Manifest.ofBytes P s) t.part index with
    | some b =>
      obtain ⟨t', missing, hrun, hsub, himp, hright⟩ := ih t
      refine ⟨t', missing, hrun, hsub.cons _, himp, ?_⟩
      intro j hj hnot
      rcases List.mem_cons.mp hj with rfl | hj
      · exact himp.blocks _ (validBlock_eq_some hvalid).1
      · exact hright j hj hnot
    | none =>
      dsimp only
      cases hreuse : file.bind fun bytes => validBlock P (Manifest.ofBytes P s) bytes index with
      | some data =>
        obtain ⟨bytes, -, hdata⟩ := Option.bind_eq_some_iff.mp hreuse
        obtain ⟨-, hlen, hhash⟩ := validBlock_eq_some hdata
        have hwrite := @write_ok _ _ _ _ t hlen hhash
        obtain ⟨hbetter, hwritten⟩ := improves_write hwrite
        obtain ⟨t', missing, hrun, hsub, himp, hright⟩ := ih _
        refine ⟨t', missing, bind_eq_ok.mpr ⟨_, hwrite, hrun⟩, hsub.cons _, hbetter.trans himp, ?_⟩
        intro j hj hnot
        rcases List.mem_cons.mp hj with rfl | hj
        · exact himp.blocks _ hwritten
        · exact hright j hj hnot
      | none =>
        obtain ⟨t', missing, hrun, hsub, himp, hright⟩ := ih t
        refine ⟨t', index :: missing, bind_eq_ok.mpr ⟨_, hrun, rfl⟩, hsub.cons_cons _, himp, ?_⟩
        intro j hj hnot
        obtain ⟨hne, hnot⟩ := not_or.mp (fun h => hnot (List.mem_cons.mpr h))
        exact hright j ((List.mem_cons.mp hj).resolve_left hne) hnot

/-- Receive the blocks of a source, in some order. -/
def putAll (P : Platform) (s : Bytes) (order : List ℕ) : Fallible Error PartFile Unit :=
  order.forM fun index => put P (Manifest.ofBytes P s) false index ((blocksOf s)[index]?.getD [])

theorem putAll_cons (index : ℕ) (rest : List ℕ) : putAll P s (index :: rest) =
    put P (Manifest.ofBytes P s) false index ((blocksOf s)[index]?.getD []) >>= fun _ => putAll P s rest := rfl

theorem putAll_spec (order : List ℕ) (horder : ∀ i ∈ order, i < (blocksOf s).length) (t : PartFile) :
    ∃ t', (putAll P s order).run t = (.ok (), t') ∧ Improves P s t t' ∧
      ∀ i ∈ order, BlockOk P (Manifest.ofBytes P s) t'.part i := by
  induction order generalizing t with
  | nil => exact ⟨t, rfl, .refl t, fun i hi => absurd hi List.not_mem_nil⟩
  | cons index rest ih =>
    have hindex : index < (blocksOf s).length := horder index (by simp)
    have hcount : index < (s.length + blockSize - 1) / blockSize := by rwa [← length_blocksOf]
    have hblock := getElem?_blocksOf hcount
    have hlen : blockLen (Manifest.ofBytes P s) index = .ok ((s.drop (index * blockSize)).take blockSize).length := by
      rw [blockLen_ofBytes P hindex, length_block]
    have hhash : (Manifest.ofBytes P s).blocks[index]? = some (P.blake3 ((s.drop (index * blockSize)).take blockSize)) := by
      rw [Manifest.ofBytes, List.getElem?_map, hblock]
      rfl
    have hwrite := @write_ok _ _ _ _ t hlen hhash
    obtain ⟨hbetter, hwritten⟩ := improves_write hwrite
    obtain ⟨t', hrun, himp, hright⟩ := ih (fun i hi => horder i (List.mem_cons_of_mem _ hi)) _
    refine ⟨t', ?_, hbetter.trans himp, ?_⟩
    · rw [putAll_cons, hblock, Option.getD_some]
      exact Fallible.run_bind_eq_ok.mpr ⟨(), _, run_put hwrite, hrun⟩
    · intro i hi
      rcases List.mem_cons.mp hi with rfl | hi
      · exact himp.blocks _ hwritten
      · exact hright i hi

/-! ### Exactness -/

/-- **The listed blocks are enough.** Whatever is in the staging file, as long as it is not longer than the source, and whatever
is at the destination or in the file from which blocks are reused: the listed blocks are increasing and there are such blocks;
when they have been received, in any order, the staging file is the source, and passes the check. What is not a block of the
source is refused and changes nothing. The blocks are the source, one after the other: each begins before its end, where the
one before it ends, and the last one ends with it. -/
theorem block_repair (P : Platform) (hinj : Function.Injective P.blake3) (s : Bytes) (hs : s.length ≤ maxSize)
    (t : PartFile) (ht : t.part.length ≤ s.length) (target basis : Option Bytes) :
    (∃ t' missing, missingFrom P (Manifest.ofBytes P s) (existing target basis)
        (List.range (Manifest.ofBytes P s).blocks.length) t = .ok (t', missing) ∧
      missing.Pairwise (· < ·) ∧ (∀ i ∈ missing, i < (Manifest.ofBytes P s).blocks.length) ∧
      ∀ order : List ℕ, order.Perm missing → ∃ t'', (putAll P s order).run t' = (.ok (), t'') ∧ t''.part = s ∧
        checkPart P (Manifest.ofBytes P s) t'' = .ok ()) ∧
    (∀ (u : PartFile) (finished : Bool) (i : ℕ) (data : Bytes), (blocksOf s)[i]? ≠ some data →
      ∃ e, (put P (Manifest.ofBytes P s) finished i data).run u = (.error e, u)) ∧
    (blocksOf s).flatten = s ∧
    ∀ i < (Manifest.ofBytes P s).blocks.length, i * blockSize < s.length ∧ ∃ len,
      blockLen (Manifest.ofBytes P s) i = .ok len ∧ 0 < len ∧
      i * blockSize + len = min ((i + 1) * blockSize) s.length ∧
      (blocksOf s)[i]? = some ((s.drop (i * blockSize)).take len) := by
  have hcount : (Manifest.ofBytes P s).blocks.length = (blocksOf s).length := by rw [Manifest.ofBytes, List.length_map]
  refine ⟨?_, ?_, flatten_blocksOf s, ?_⟩
  · obtain ⟨t', missing, hrun, hsub, himp, hright⟩ := @missingFrom_spec P s (existing target basis)
      (List.range (Manifest.ofBytes P s).blocks.length) t
    have hvalid : ∀ i ∈ missing, i < (Manifest.ofBytes P s).blocks.length := fun i hi =>
      List.mem_range.mp (hsub.subset hi)
    refine ⟨t', missing, hrun, List.pairwise_lt_range.sublist hsub, hvalid, ?_⟩
    intro order horder
    obtain ⟨t'', hput, himp', hright'⟩ := @putAll_spec P s order (fun i hi => hcount ▸ hvalid i (horder.subset hi)) t'
    have hpart : t''.part = s := by
      refine eq_of_blockOk hinj (himp'.length (himp.length ht)) ?_
      intro k hk
      by_cases hmem : k ∈ missing
      · exact hright' k (horder.symm.subset hmem)
      · exact himp'.blocks k (hright k (List.mem_range.mpr (hcount ▸ hk)) hmem)
    refine ⟨t'', hput, hpart, ?_⟩
    rw [checkPart, hpart, ensure, if_pos hs, ensure, if_pos rfl]
    rfl
  · intro u finished i data hdata
    cases hwrite : u.write P (Manifest.ofBytes P s) i data with
    | ok u' => exact absurd (block_of_write hinj hwrite) hdata
    | error e => exact run_put_refused finished hwrite
  · intro i hi
    rw [hcount] at hi
    obtain ⟨hstart, hend⟩ := block_bounds hi
    refine ⟨hstart, _, blockLen_ofBytes P hi, ?_, hend, ?_⟩
    · exact lt_min (by omega) blockSize_pos
    · rw [getElem?_blocksOf (by rwa [← length_blocksOf]), take_block]

/-- A byte that is not in the staging file, and another one that is at the destination. -/
theorem block_repair_byte : ∃ t' missing, missingFrom .sample (Manifest.ofBytes .sample [7]) (existing (some [8]) none)
      (List.range (Manifest.ofBytes .sample [7]).blocks.length) ⟨[], []⟩ = .ok (t', missing) ∧
    ∃ t'', (putAll .sample [7] missing).run t' = (.ok (), t'') ∧ t''.part = [7] := by
  have hsize : ([7] : Bytes).length ≤ maxSize := by
    rw [maxSize]
    exact Nat.one_le_two_pow
  obtain ⟨⟨t', missing, hrun, -, -, hput⟩, -⟩ := block_repair .sample Platform.sample_blake3_injective [7] hsize ⟨[], []⟩
    (Nat.zero_le _) (some [8]) none
  obtain ⟨t'', hrun', hpart, -⟩ := hput missing (List.Perm.refl _)
  exact ⟨t', missing, hrun, t'', hrun', hpart⟩

end Everywhere
