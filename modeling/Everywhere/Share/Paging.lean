import Everywhere.Share.Checkpoint

/-!
# Paging

A share sends its records a page at a time, and each page begins after the last record of the one before it. That
nothing is left out and nothing is sent twice rests on the numbers of the rows: they are different (`Index.Numbered`), and a
row whose version set changes gets one that is greater than all announced before (`Index.Renumbered`).

* `paging_complete` — **the pages are complete**: they list the rows in a range of numbers, each once and in their order, and
  who reads them accepts them.
* `pages_taken` — a share to which the pages of another one are brought takes them in, and gets to their end.
-/

namespace Everywhere

open Library

namespace Index

variable {P : Platform} {i i' : Index} {since ceiling limit : ℕ}

/-! ### New numbers -/

/-- Rows keep their numbers, or get new ones with new version sets. -/
def Renumbered (i i' : Index) : Prop := i.seq ≤ i'.seq ∧ ∀ (path : String) (l' : Row), i'.entries[path]? = some l' →
  i.seq < l'.seq ∨ ∃ l : Row, i.entries[path]? = some l ∧ l.versions = l'.versions ∧ l.seq = l'.seq

theorem Renumbered.refl (i : Index) : Renumbered i i := ⟨le_rfl, fun _ l h => .inr ⟨l, h, rfl, rfl⟩⟩

theorem Renumbered.trans {j k : Index} (h : Renumbered i j) (h' : Renumbered j k) : Renumbered i k := by
  refine ⟨h.1.trans h'.1, fun path l'' hl'' => ?_⟩
  rcases h'.2 path l'' hl'' with hlt | ⟨l', hl', hv, hs⟩
  · exact .inl (h.1.trans_lt hlt)
  · rcases h.2 path l' hl' with hlt | ⟨l, hl, hv', hs'⟩
    · exact .inl (hs ▸ hlt)
    · exact .inr ⟨l, hl, hv'.trans hv, hs'.trans hs⟩

theorem renumbered_save {path : String} {v o : Versions} {m : Option Content} (h : i.save P path v m o = .ok i') :
    Renumbered i i' := by
  have hentries := save_entries h
  obtain ⟨-, -, -, hi'⟩ := save_eq_ok.mp h
  have hseq : i'.seq = if (i.entries[path]?.all fun l => l.versions ≠ v) then i.seq + 1 else i.seq := by rw [hi']
  refine ⟨by rw [hseq]; split_ifs <;> omega, fun q l' hq => ?_⟩
  rw [hentries] at hq
  split_ifs at hq with hp
  · subst hp
    obtain rfl := Option.some.inj hq
    by_cases hc : (i.entries[q]?.all fun l => l.versions ≠ v)
    · refine .inl ?_
      simp only [nextSeq, if_pos hc]
      exact Nat.lt_succ_self _
    · refine .inr ?_
      cases hl : i.entries[q]? with
      | none => simp [hl] at hc
      | some l =>
        refine ⟨l, rfl, ?_, ?_⟩
        · simpa [hl] using hc
        · rw [hl] at hc
          simp only [nextSeq, hl, if_neg hc]
          rfl
  · exact .inr ⟨l', hq, rfl, rfl⟩

theorem Chain.renumbered {replica : String} {approve settle : Bool} (h : Chain P replica approve settle i i') :
    Renumbered i i' := by
  induction h with
  | refl => exact .refl i
  | tail _ h ih =>
    refine ih.trans ?_
    cases h with
    | save h =>
      obtain ⟨v, m, o, h⟩ := h.saved
      exact renumbered_save h
    | aside h | settle _ h =>
      exact ⟨h.seq.ge, fun path l hl => .inr ⟨l, by rwa [← h.entries], rfl, rfl⟩⟩

/-! ### A page -/

/-- The records are those of the rows with a number in a range, in their order. -/
structure Lists (i : Index) (since upto : ℕ) (rs : List Record) : Prop where
  /-- They are in their order, each once. -/
  sorted : rs.Pairwise fun a b => a.seq < b.seq
  /-- They are those of the rows. -/
  mem : ∀ r, r ∈ rs ↔ (∃ l : Row, i.entries[r.path]? = some l ∧ l.versions = r.versions ∧ l.seq = r.seq) ∧
    since < r.seq ∧ r.seq ≤ upto

theorem nodup_records (i : Index) (since ceiling limit : ℕ) : (i.records since ceiling limit).Nodup := by
  refine List.Nodup.sublist (List.take_sublist _ _) ((List.perm_insertionSort _ _).nodup_iff.mpr ?_)
  refine List.Nodup.filter _ (List.pairwise_map.mpr (i.entries.distinct_keys_toList.imp fun h he => h ?_))
  have hpath := congrArg Record.path he
  dsimp only at hpath
  rw [hpath]
  exact Std.ReflCmp.compare_self

/-- A page lists the rows up to its last record; after the last page, none is left. -/
theorem lists_records (hi : i.Numbered) {p : List Record} (hp : p = i.records since ceiling 32) :
    Lists i since ((p.getLast?.elim ceiling) fun last => last.seq) p ∧ p.length ≤ 32 := by
  obtain ⟨full, hfull, hsorted, -⟩ := i.records_eq since ceiling 32
  have hle : p.Pairwise fun a b => a.seq ≤ b.seq := by
    rw [hp, hfull]
    exact hsorted.sublist (List.take_sublist _ _)
  have hnodup : p.Nodup := by
    rw [hp]
    exact nodup_records i since ceiling 32
  have hrow : ∀ r ∈ p, (∃ l : Row, i.entries[r.path]? = some l ∧ l.versions = r.versions ∧ l.seq = r.seq) ∧
      since < r.seq ∧ r.seq ≤ ceiling := fun r hr => mem_records (hp ▸ hr)
  have hlast : ∀ r ∈ p, r.seq ≤ (p.getLast?.elim ceiling) fun last => last.seq := by
    intro r hr
    cases hget : p.getLast? with
    | none =>
      rw [List.getLast?_eq_none_iff.mp hget] at hr
      cases hr
    | some last =>
      obtain ⟨init, rfl⟩ := List.getLast?_eq_some_iff.mp hget
      rcases List.mem_append.mp hr with hr | hr
      · exact (List.pairwise_append.mp hle).2.2 r hr last (by simp)
      · rw [List.mem_singleton.mp hr]
        rfl
  refine ⟨⟨?_, fun r => ⟨fun hr => ⟨(hrow r hr).1, (hrow r hr).2.1, hlast r hr⟩, ?_⟩⟩, ?_⟩
  · -- two records with one number are those of one row
    refine (hle.and hnodup).imp_of_mem fun {a b} ha hb ⟨hab, hne⟩ => lt_of_le_of_ne hab fun he => hne ?_
    obtain ⟨⟨l, hl, hv, hs⟩, -⟩ := hrow a ha
    obtain ⟨⟨l', hl', hv', hs'⟩, -⟩ := hrow b hb
    have hpath : a.path = b.path := hi.inj _ _ _ _ hl hl' (hs.trans (he.trans hs'.symm))
    rw [hpath] at hl
    obtain rfl := Option.some.inj (hl.symm.trans hl')
    obtain ⟨path, versions, seq⟩ := a
    obtain ⟨path', versions', seq'⟩ := b
    dsimp only at hpath hv hv' he
    rw [hpath, ← hv, hv', he]
  · rintro ⟨⟨l, hl, hv, hs⟩, hsince, hupto⟩
    have hceiling : l.seq ≤ ceiling := by
      rw [hs]
      cases hget : p.getLast? with
      | none => simpa [hget] using hupto
      | some last =>
        rw [hget] at hupto
        exact hupto.trans (hrow last (List.mem_of_getLast? hget)).2.2
    have hmem := @records_complete _ since ceiling 32 hi (by omega) _ _ hl (hs ▸ hsince) hceiling fun last hget => by
      rw [← hp] at hget
      rw [hs]
      simpa [hget] using hupto
    rw [← hp, hv, hs] at hmem
    exact hmem
  · rw [hp, hfull, List.length_take]
    exact min_le_left _ _

/-- The rows in a range are those up to a number in it, and those after it. -/
theorem Lists.append {middle upto : ℕ} {p rest : List Record} (h : Lists i since middle p) (h' : Lists i middle upto rest)
    (hsince : since ≤ middle) (hupto : middle ≤ upto) : Lists i since upto (p ++ rest) := by
  refine ⟨List.pairwise_append.mpr ⟨h.sorted, h'.sorted, fun a ha b hb => ?_⟩, fun r => ?_⟩
  · exact ((h.mem a).mp ha).2.2.trans_lt ((h'.mem b).mp hb).2.1
  · rw [List.mem_append, h.mem, h'.mem]
    constructor
    · rintro (⟨hrow, hlt, hle⟩ | ⟨hrow, hlt, hle⟩)
      · exact ⟨hrow, hlt, hle.trans hupto⟩
      · exact ⟨hrow, hsince.trans_lt hlt, hle⟩
    · rintro ⟨hrow, hlt, hle⟩
      rcases Nat.lt_or_ge middle r.seq with hm | hm
      · exact .inr ⟨hrow, hm, hle⟩
      · exact .inl ⟨hrow, hlt, hm⟩

end Index

namespace Share

variable {β : Type} {P : Platform} {W : Wire β} {s : Share β}

/-! ### The pages of a session -/

/-- The message with a page of records. -/
def page (records : List Record) : Message := .metadata (.page records)

/-- The pages pass the checks of who reads them. -/
def Accepted (ceiling : ℕ) : ℕ → List (List Record) → Prop
  | _, [] => True
  | last, p :: rest => (p ≠ [] ∧ p.length ≤ 32) ∧ ordered ceiling last p = true ∧
      Accepted ceiling ((p.getLast?.elim last) fun r => r.seq) rest

theorem ordered_of_sorted {ceiling last : ℕ} {p : List Record} (hsorted : p.Pairwise fun a b => a.seq < b.seq)
    (hrange : ∀ r ∈ p, last < r.seq ∧ r.seq ≤ ceiling) : ordered ceiling last p = true := by
  induction p generalizing last with
  | nil => rfl
  | cons r p ih =>
    obtain ⟨hr, hp⟩ := List.pairwise_cons.mp hsorted
    rw [ordered, Bool.and_eq_true, decide_eq_true_iff]
    exact ⟨hrange r (by simp), ih hp fun r' hr' => ⟨hr r' hr', (hrange r' (by simp [hr'])).2⟩⟩

/-- Pages in the order of their records are accepted. -/
theorem accepted_of_sorted {ceiling last : ℕ} {pages : List (List Record)} (hpages : ∀ p ∈ pages, p ≠ [] ∧ p.length ≤ 32)
    (hsorted : pages.flatten.Pairwise fun a b => a.seq < b.seq)
    (hrange : ∀ r ∈ pages.flatten, last < r.seq ∧ r.seq ≤ ceiling) : Accepted ceiling last pages := by
  induction pages generalizing last with
  | nil => trivial
  | cons p pages ih =>
    rw [List.flatten_cons] at hsorted hrange
    obtain ⟨hp, hrest, hcross⟩ := List.pairwise_append.mp hsorted
    refine ⟨hpages p (by simp), ordered_of_sorted hp fun r hr => hrange r (List.mem_append_left _ hr),
      ih (fun q hq => hpages q (by simp [hq])) hrest fun r hr => ⟨?_, (hrange r (List.mem_append_right _ hr)).2⟩⟩
    cases hget : p.getLast? with
    | none => exact absurd (List.getLast?_eq_none_iff.mp hget) (hpages p (by simp)).1
    | some l => exact hcross l (List.mem_of_getLast? hget) r hr

/-- The index, and what has been sent. -/
def Sent (i : Index) (out : List Message) (s : Share β) : Prop := s.index = i ∧ s.output = out

theorem stable_sent (i : Index) (out : List Message) : Stable (relying (β := β)) (Sent i out) :=
  fun _ _ h hs => ⟨h.index.trans hs.1, h.output.trans hs.2⟩

/-- The check of the peer changes nothing. -/
theorem tries_authorize (peer : String) :
    Tries (fun s s' => s' = s) (fun _ => True) (authorize peer false : Io (Share β) Unit) :=
  Tries.ofOnly ((@talk_authorize _ (fun _ => False) (fun _ _ => False) peer false).mono fun γ act h s => by
    cases h with
    | look f => rfl
    | send m hm => exact hm.elim
    | read f hf => exact hf.elim)

/-- **The loop sends the rows in the range.** -/
theorem triple_sendPages {i : Index} (hi : i.Numbered) (peer : String) (ceiling fuel since : ℕ) (out : List Message)
    (hfuel : ceiling < since + fuel) : Triple relying (Sent i out) (sendPages peer ceiling fuel since : Io (Share β) Unit)
      (outcome (fun _ s => ∃ pages : List (List Record), Sent i (out ++ pages.map page) s ∧
        (∀ p ∈ pages, p ≠ [] ∧ p.length ≤ 32) ∧ i.Lists since ceiling pages.flatten) fun _ _ => True) := by
  induction fuel generalizing since out with
  | zero =>
    refine Triple.ofExcept (stable_sent i out) (fun _ _ => trivial) fun s hs => ⟨[], by simpa using hs, by simp, by simp, ?_⟩
    intro r
    simp only [List.flatten_nil, List.not_mem_nil, false_iff, not_and]
    intro _ _
    omega
  | succ fuel ih =>
    refine Triple.andThen (Q := fun _ => Sent i out) ?_ fun _ => ?_
    · refine ((tries_authorize peer).triple (stable_sent i out) (fun _ _ => trivial) fun s s' hs h =>
        ⟨trivial, h ▸ hs⟩).conseq (fun _ h => h) fun r _ hr => ?_
      cases r with
      | error e => trivial
      | ok _ => exact hr.1
    refine Triple.andThen (Q := fun p s => Sent i out s ∧ p = i.records since ceiling 32)
      (relying_act (stable_sent i out) (fun _ => (stable_sent i out).and fun _ _ _ h => h) fun s hs => ⟨hs, ?_⟩) fun p =>
      Triple.fact fun hp => ?_
    · dsimp only
      rw [hs.1]
    obtain ⟨hlists, hlength⟩ := Index.lists_records hi hp
    split
    next hlast =>
      rw [hlast] at hlists
      obtain rfl := List.getLast?_eq_none_iff.mp hlast
      exact Triple.ofExcept (stable_sent i out) (fun _ _ => trivial) fun s hs =>
        ⟨[], by simpa using hs, by simp, hlists⟩
    next last hlast =>
      rw [hlast] at hlists
      have hin := Index.mem_records (hp ▸ List.mem_of_getLast? hlast)
      refine Triple.andThen (Q := fun _ => Sent i (out ++ [page p])) (relying_act (stable_sent i out)
        (fun _ => stable_sent i _) fun s hs => ⟨hs.1, by rw [← hs.2]; rfl⟩) fun _ => ?_
      refine (ih last.seq (out ++ [page p]) (by omega)).conseq (fun _ h => h) fun r s hr => ?_
      cases r with
      | error e => trivial
      | ok a =>
        obtain ⟨pages, hsent, hpages, hrest⟩ := hr
        refine ⟨p :: pages, by simpa using hsent, ?_, ?_⟩
        · refine List.forall_mem_cons.mpr ⟨⟨?_, hlength⟩, hpages⟩
          rintro rfl
          cases hlast
        · rw [List.flatten_cons]
          exact hlists.append hrest hin.2.1.le hin.2.2

theorem run_authorize {peer : String} (h : peer ∈ s.config.peers) :
    Fallible.run (authorize peer false : Io (Share β) Unit) s = (.ok (), s) := by
  have hpeer : Fallible.run (Fallible.ofExcept (ensure (peer ∈ s.config.peers) "peer is not approved for this share") :
      Io (Share β) Unit) s = (.ok (), s) := by
    rw [Fallible.run_ofExcept, ensure, if_pos h]
  refine Fallible.run_bind_eq_ok.mpr ⟨s.config, s, rfl, Fallible.run_bind_eq_ok.mpr ⟨(), s, hpeer, ?_⟩⟩
  simp [ensure]

/-- The loop ends without an error when the peer is approved. -/
theorem run_sendPages {peer : String} (ceiling fuel since : ℕ) (h : peer ∈ s.config.peers) :
    (Fallible.run (sendPages peer ceiling fuel since : Io (Share β) Unit) s).1 = .ok () := by
  induction fuel generalizing since s with
  | zero => rfl
  | succ fuel ih =>
    rw [sendPages, Fallible.run_bind, run_authorize h]
    dsimp only
    rw [Fallible.run_bind, Fallible.run_look]
    dsimp only
    split
    · rfl
    · exact ih _ h

/-- What the loop has sent when it has ended. -/
theorem sent_of_reaches (h : Reachable P W s) {peer : String} {since : ℕ} {t : Share β}
    (hrun : Prog.Reaches Outside (sendPages peer s.index.seq (s.index.seq + 1 - since) since : Io (Share β) Unit) s
      (.ret (.ok ())) t) :
    ∃ pages : List (List Record), t.output = s.output ++ pages.map page ∧ s.index.Lists since s.index.seq pages.flatten ∧
      Accepted s.index.seq 0 pages := by
  obtain ⟨pages, hsent, hpages, hlists⟩ := ((triple_sendPages h.numbered peer s.index.seq (s.index.seq + 1 - since) since
    s.output (by omega) s ⟨rfl, rfl⟩).reaches hrun).post_of_ret
  exact ⟨pages, hsent.2, hlists, accepted_of_sorted hpages hlists.sorted fun r hr =>
    ⟨(Nat.zero_le _).trans_lt ((hlists.mem r).mp hr).2.1, ((hlists.mem r).mp hr).2.2⟩⟩

/-! ### Who reads the pages -/

/-- The number of the last record of a page. -/
def lastSeq (last : ℕ) (page : List Record) : ℕ := page.getLast?.elim last fun r => r.seq

theorem lt_lastSeq {ceiling last : ℕ} {page : List Record} (hne : page ≠ []) (h : ordered ceiling last page = true) :
    last < lastSeq last page ∧ lastSeq last page ≤ ceiling := by
  induction page generalizing last with
  | nil => exact absurd rfl hne
  | cons r page ih =>
    simp only [ordered, Bool.and_eq_true, decide_eq_true_eq] at h
    cases page with
    | nil => exact h.1
    | cons r' page =>
      obtain ⟨hlt, hle⟩ := ih (by simp) h.2
      have hsame : lastSeq last (r :: r' :: page) = lastSeq r.seq (r' :: page) := by
        simp [lastSeq, List.getLast?_eq_getLast_of_ne_nil]
      rw [hsame]
      exact ⟨h.1.1.trans hlt, hle⟩

/-- The connection brings the pages, and then their end. -/
def Brings (W : Wire β) : List (List Record) → β → Prop
  | [], input => ∃ input', W.metadata input = (.ok .end_, input')
  | p :: rest, input => ∃ input', W.metadata input = (.ok (.page p), input') ∧ Brings W rest input'

/-- A record of a row is taken in. -/
theorem stageRecord_ok (present : String → Bool) {r : Record} (i : Index) (hpath : validatePath r.path = .ok ())
    (hversions : r.versions.Proper P) : ∃ i', i.stageRecord P present r = .ok i' := by
  have hhashes : (r.versions.heads.filterMap fun h => Index.object h.content).all isHash = true := by
    rw [List.all_eq_true]
    intro hash hhash
    obtain ⟨h, hh, hobject⟩ := List.mem_filterMap.mp hhash
    cases hc : h.content with
    | file hash' =>
      rw [hc] at hobject
      obtain rfl := Option.some.inj hobject
      exact (hversions.canonical.valid h hh).isHash hc
    | directory | deleted =>
      rw [hc] at hobject
      cases hobject
  exact ⟨_, bind_eq_ok.mpr ⟨(), hpath, bind_eq_ok.mpr ⟨_, Versions.join_default.mpr hversions.canonical,
    ensure_bind_eq_ok.mpr ⟨hversions.nonempty, ensure_bind_eq_ok.mpr ⟨hhashes, rfl⟩⟩⟩⟩⟩

theorem indexStage_ok (present : String → Bool) {records : List Record} (i : Index)
    (h : ∀ r ∈ records, validatePath r.path = .ok () ∧ r.versions.Proper P) : ∃ i', i.stage P present records = .ok i' := by
  induction records generalizing i with
  | nil => exact ⟨i, rfl⟩
  | cons r records ih =>
    obtain ⟨hr, hrecords⟩ := List.forall_mem_cons.mp h
    obtain ⟨i', hi'⟩ := stageRecord_ok present i hr.1 hr.2
    obtain ⟨i'', hi''⟩ := ih i' hrecords
    exact ⟨i'', by rw [Index.stage, List.foldlM_cons]; exact bind_eq_ok.mpr ⟨i', hi', hi''⟩⟩

/-- A page is taken in by a share that takes in changes. -/
theorem run_stage {peer : String} {records : List Record} (hpeer : peer ∈ s.config.peers) (hmode : s.config.mode ≠ .sendOnly)
    (hlength : records.length ≤ 32) (h : ∀ r ∈ records, validatePath r.path = .ok () ∧ r.versions.Proper P) :
    ∃ i', Fallible.run (stage P peer records : Io (Share β) Unit) s = (.ok (), { s with index := i' }) := by
  obtain ⟨i', hi'⟩ := indexStage_ok (fun hash => hash ∈ s.objects) s.index h
  have hauthorized : Fallible.run (authorize peer true : Io (Share β) Unit) s = (.ok (), s) := by
    rw [authorize, Fallible.run_bind, Fallible.run_look]
    simp [Fallible.run_bind, ensure, hpeer, hmode]
  refine ⟨i', Fallible.run_bind_eq_ok.mpr ⟨(), s, hauthorized, Fallible.run_bind_eq_ok.mpr ⟨(), s, ?_,
    Fallible.run_bind_eq_ok.mpr ⟨s.objects, s, rfl, ?_⟩⟩⟩⟩
  · rw [Fallible.lift_eq, Fallible.run_ofExcept, ensure, if_pos (hlength.trans (by decide))]
  · rw [transaction, Fallible.run_act, hi']

/-- **Pages that are accepted are taken in**, up to their end. -/
theorem run_readPages {peer : String} {theirs : Hello} {pages : List (List Record)} {last fuel : ℕ}
    (hpeer : peer ∈ s.config.peers) (hmode : s.config.mode ≠ .sendOnly)
    (hrecords : ∀ r ∈ pages.flatten, validatePath r.path = .ok () ∧ r.versions.Proper P)
    (haccepted : Accepted theirs.sequence last pages) (hbrings : Brings W pages s.input)
    (hlast : last ≤ theirs.sequence) (hfuel : theirs.sequence < last + fuel) :
    (Fallible.run (readPages P W peer theirs fuel last : Io (Share β) Unit) s).1 = .ok () := by
  induction pages generalizing last fuel s with
  | nil =>
    obtain ⟨input', hinput⟩ := hbrings
    obtain ⟨fuel, rfl⟩ := Nat.exists_eq_succ_of_ne_zero (show fuel ≠ 0 by omega)
    rw [readPages, readTurn, Fallible.run_bind, run_authorize hpeer]
    dsimp only
    rw [Fallible.run_bind, read, Fallible.run_act, hinput]
    rfl
  | cons p pages ih =>
    obtain ⟨input', hinput, hrest⟩ := hbrings
    obtain ⟨hp, hordered, haccepted⟩ := haccepted
    obtain ⟨hlt, hle⟩ := lt_lastSeq hp.1 hordered
    obtain ⟨fuel, rfl⟩ := Nat.exists_eq_succ_of_ne_zero (show fuel ≠ 0 by omega)
    rw [List.flatten_cons] at hrecords
    obtain ⟨i', hi'⟩ := @run_stage _ P { s with input := input' } peer p hpeer hmode hp.2 fun r hr =>
      hrecords r (List.mem_append_left _ hr)
    rw [readPages, readTurn, Fallible.run_bind, run_authorize hpeer]
    dsimp only
    rw [Fallible.run_bind, read, Fallible.run_act, hinput]
    dsimp only
    rw [ensure, if_pos hp, ensure, if_pos hordered, Fallible.run_bind, Fallible.lift_eq, Fallible.run_ofExcept]
    dsimp only
    rw [Fallible.run_bind, Fallible.run_ofExcept]
    dsimp only
    rw [Fallible.run_bind, hi']
    exact ih hpeer hmode (fun r hr => hrecords r (List.mem_append_right _ hr)) haccepted hrest hle
      (show theirs.sequence < lastSeq last p + fuel by omega)

/-- **The pages of a share are taken in.** When the loop of `sendMetadata` has ended in a reachable share, any share that takes
in changes of the peer, and to which the pages are brought, reads all of them and their end without an error. -/
theorem pages_taken (hhash : ∀ bytes, isHash (P.blake3 bytes) = true) (h : Reachable P W s) {peer : String} {since : ℕ}
    {t : Share β} (hrun : Prog.Reaches Outside (sendPages peer s.index.seq (s.index.seq + 1 - since) since :
      Io (Share β) Unit) s (.ret (.ok ())) t) :
    ∃ pages : List (List Record), t.output = s.output ++ pages.map page ∧
      ∀ {γ : Type} (V : Wire γ) (u : Share γ) (sender : String) (theirs : Hello), theirs.sequence = s.index.seq →
        sender ∈ u.config.peers → u.config.mode ≠ .sendOnly → Brings V pages u.input →
        (Fallible.run (readMetadata P V sender theirs) u).1 = .ok () := by
  obtain ⟨pages, hsent, hlists, haccepted⟩ := sent_of_reaches h hrun
  refine ⟨pages, hsent, fun {γ} V u sender theirs htheirs hsender hmode hbrings => ?_⟩
  refine run_readPages hsender hmode (fun r hr => ?_) (htheirs ▸ haccepted) hbrings (Nat.zero_le _) (by omega)
  obtain ⟨⟨l, hl, hversions, -⟩, -⟩ := (hlists.mem r).mp hr
  obtain ⟨hpath, hrow⟩ := (h.sound hhash).rows r.path l hl
  exact ⟨hpath, hversions ▸ hrow.versions⟩

/-- **The pages are complete.** In every reachable share, for every number from which the peer wants the records of the
announced sequence: when the loop of `sendMetadata` has ended, the pages that were sent list the rows with a number in that
range, each once and in their order, and `readMetadata` accepts them; and the loop ends, unless the peer is not approved any
more. Whatever has happened to the share later, a row whose version set has changed has a number that is greater than
the announced sequence. -/
theorem paging_complete (P : Platform) (W : Wire β) (s : Share β) (h : Reachable P W s) (peer : String) :
    (∀ since ≤ s.index.seq, ∀ t, Prog.Reaches Outside
      (sendPages peer s.index.seq (s.index.seq + 1 - since) since : Io (Share β) Unit) s (.ret (.ok ())) t →
      ∃ pages : List (List Record), t.output = s.output ++ pages.map page ∧
        pages.flatten.Pairwise (fun a b => a.seq < b.seq) ∧
        (∀ r, r ∈ pages.flatten ↔ (∃ l : Row, s.index.entries[r.path]? = some l ∧ l.versions = r.versions ∧ l.seq = r.seq) ∧
          since < r.seq ∧ r.seq ≤ s.index.seq) ∧
        Accepted s.index.seq 0 pages) ∧
    (∀ since, peer ∈ s.config.peers → (Fallible.run
      (sendPages peer s.index.seq (s.index.seq + 1 - since) since : Io (Share β) Unit) s).1 = .ok ()) ∧
    ∀ s', Stretch P W s s' → ∀ (path : String) (l' : Row), s'.index.entries[path]? = some l' →
      (∀ l : Row, s.index.entries[path]? = some l → l.versions ≠ l'.versions) → s.index.seq < l'.seq := by
  refine ⟨fun since hsince t hrun => ?_, fun since hpeer => run_sendPages _ _ _ hpeer, fun s' hs' path l' hl' hne => ?_⟩
  · obtain ⟨pages, hsent, hlists, haccepted⟩ := sent_of_reaches h hrun
    exact ⟨pages, hsent, hlists.sorted, hlists.mem, haccepted⟩
  · have hrenumbered := (hs'.chain h.seenOk Index.Renumbered.refl (fun _ _ _ => Index.Renumbered.trans)
      fun _ _ _ => Index.Chain.renumbered).1
    rcases hrenumbered.2 path l' hl' with hlt | ⟨l, hl, hv, -⟩
    · exact hlt
    · exact absurd hv (hne l hl)

/-- The pages of a share in which a directory was found. -/
theorem paging_complete_scanned : (Fallible.run (sendPages "peer" scanned.index.seq (scanned.index.seq + 1 - 0) 0 :
    Io (Share Unit) Unit) scanned).1 = .ok () :=
  (paging_complete .sample silent scanned reachable_scanned "peer").2.1 0 (by decide +kernel)

end Share
end Everywhere
