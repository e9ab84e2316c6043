import Everywhere.Share.Checkpoint

/-!
# Aliases

Two paths that some platform takes for one have the same collision key. A scan refuses a folder that holds two such
paths (`recordSeen`). The table of the paths has a unique column of collision keys, too, but it never loses a row: what
was renamed in letter case only, or is gone for long, still stands in the way of its aliases.

A scan of a folder is compared with the scan in the index that only knows the paths of the folder (`Index.among`),
which `Follows` relates at each step.

* `scan_aliases` — **what the index knows of absent paths** makes a folder without aliases unscannable just when a
  path of the folder is an alias of a different path that the index knows (`Index.Aliased`).
* `triple_visited` — a scan of the share, whatever others do meanwhile, succeeds only if the folder it visited has no aliases and no
  path of it is one of another path of the index; then all that was seen is in the rows.
-/

namespace Everywhere

open Library

variable {P : Platform}

/-- The error of the unique column. -/
def aliasError : Error := .message "UNIQUE constraint failed: entries.alias"

/-! ### What does not fail on aliases -/

/-- It does not fail on the unique column. -/
def Clean {α : Type} (r : Result α) : Prop := r ≠ .error aliasError

theorem clean_ok {α : Type} (a : α) : Clean (.ok a : Result α) := nofun

theorem clean_ensure {c : Prop} [Decidable c] {text : String} (h : text ≠ "UNIQUE constraint failed: entries.alias") :
    Clean (ensure c text) := by
  unfold ensure Clean aliasError
  split_ifs
  · nofun
  · simpa using h

theorem Clean.bind {α β : Type} {x : Result α} {f : α → Result β} (hx : Clean x) (hf : ∀ a, x = .ok a → Clean (f a)) :
    Clean (x >>= f) := by
  cases x with
  | error e => exact fun h => hx (congrArg Except.error (Except.error.inj h))
  | ok a => exact hf a rfl

theorem clean_forM {α : Type} {l : List α} {f : α → Result Unit} (hf : ∀ a, Clean (f a)) : Clean (l.forM f) := by
  induction l with
  | nil => exact clean_ok ()
  | cons a l ih => exact (hf a).bind fun _ _ => ih

theorem clean_validatePath (path : String) : Clean (validatePath path) :=
  (clean_ensure (by decide)).bind fun _ _ => clean_forM fun name =>
    (clean_ensure (by decide)).bind fun _ _ => (clean_ensure (by decide)).bind fun _ _ =>
      (clean_ensure (by decide)).bind fun _ _ => (clean_ensure (by decide)).bind fun _ _ =>
        (clean_ensure (by decide)).bind fun _ _ => clean_ensure (by decide)

theorem clean_check (r : Revision) : Clean r.check := by
  refine ((clean_ensure (by decide)).bind fun _ _ => clean_ensure (by decide)).bind fun _ _ => ?_
  cases r.content with
  | file hash => exact clean_ensure (by decide)
  | directory | deleted => exact clean_ok ()

theorem clean_join (v w : Versions) : Clean (v.join P w) :=
  (clean_ensure (by decide)).bind fun _ _ => (clean_ensure (by decide)).bind fun _ _ =>
    (clean_forM clean_check).bind fun _ _ => (clean_ensure (by decide)).bind fun _ _ =>
      (clean_ensure (by decide)).bind fun _ _ => (clean_ensure (by decide)).bind fun _ _ => clean_ok _

theorem clean_edit (v : Versions) (device : String) (content : Content) : Clean (v.edit P device content) :=
  ((clean_ensure (by decide)).bind fun _ _ => (clean_ensure (by decide)).bind fun _ _ => clean_ok _).bind fun _ _ =>
    clean_join _ _

namespace Index

variable {replica path : String} {i i' i₀ : Index} {v o : Versions} {m : Option Content}
  {seen : Std.ExtTreeMap String Content}

/-- Another path that the index knows has the collision key of this one. -/
def Aliased (P : Platform) (i : Index) (path : String) : Prop :=
  ∃ other ∈ i.entries, other ≠ path ∧ collisionKey P other = collisionKey P path

/-- No two paths of the index have the same collision key. -/
def Unaliased (P : Platform) (i : Index) : Prop :=
  ∀ path ∈ i.entries, ∀ other ∈ i.entries, collisionKey P path = collisionKey P other → path = other

/-- The index as if it only knew the paths of a folder. -/
def among (i : Index) (seen : Std.ExtTreeMap String Content) : Index :=
  { i with entries := i.entries.filter fun path _ => decide (path ∈ seen) }

/-- The checks of `save` before that of the unique column. -/
def room (i : Index) (path : String) (v : Versions) : Result Unit := do
  validatePath path
  ensure ((i.entries[path]?.all fun l => l.versions ≠ v) → i.seq + 1 ≤ i64Max) "share sequence exhausted"

theorem clean_room (i : Index) (path : String) (v : Versions) : Clean (i.room path v) :=
  (clean_validatePath path).bind fun _ _ => clean_ensure (by decide)

theorem room_congr (hseq : i'.seq = i.seq) (hrow : i'.entries[path]? = i.entries[path]?) (v : Versions) :
    i'.room path v = i.room path v := by
  simp only [room, hseq, hrow]

theorem save_of_room_error {e : Error} (h : i.room path v = .error e) : i.save P path v m o = .error e := by
  simp only [room] at h
  simp only [save]
  cases hpath : validatePath path with
  | error e' =>
    rw [hpath] at h
    obtain rfl := Except.error.inj h
    rfl
  | ok _ =>
    rw [hpath] at h
    unfold ensure at h ⊢
    simp only [bind, Except.bind] at h ⊢
    split_ifs at h ⊢ <;> simp_all

/-- With room for it, a row is written just when its path has no alias. -/
theorem save_of_room (h : i.room path v = .ok ()) (m : Option Content) (o : Versions) :
    (i.Aliased P path → i.save P path v m o = .error aliasError) ∧
      (¬ i.Aliased P path → ∃ i', i.save P path v m o = .ok i') := by
  obtain ⟨⟨⟩, hpath, hseq⟩ := bind_eq_ok.mp h
  have hseq := ensure_eq_ok.mp hseq
  refine ⟨fun ⟨other, hmem, hne, hkey⟩ => ?_, fun hnot => ⟨_, save_eq_ok.mpr ⟨hpath, hseq, fun other hmem hne hkey =>
    hnot ⟨other, Std.ExtTreeMap.mem_keys.mp hmem, hne, hkey⟩, rfl⟩⟩⟩
  have halias : ¬ ∀ other ∈ i.entries.keys, other ≠ path → collisionKey P other ≠ collisionKey P path :=
    fun hall => hall other (Std.ExtTreeMap.mem_keys.mpr hmem) hne hkey
  simp only [save, hpath, ensure, bind, Except.bind, if_pos hseq, if_neg halias]
  rfl

theorem clean_save (hi : ¬ i.Aliased P path) (v : Versions) (m : Option Content) (o : Versions) :
    Clean (i.save P path v m o) := by
  cases h : i.room path v with
  | error e =>
    rw [save_of_room_error h]
    exact fun he => clean_room i path v (h.trans (congrArg Except.error (Except.error.inj he)))
  | ok _ =>
    obtain ⟨i', h'⟩ := (save_of_room h m o).2 hi
    rw [h']
    exact clean_ok i'

theorem unaliased_save (hi : i.Unaliased P) (h : i.save P path v m o = .ok i') : i'.Unaliased P := by
  obtain ⟨-, -, halias, rfl⟩ := save_eq_ok.mp h
  intro q hq q' hq' hkey
  simp only [Std.ExtTreeMap.mem_insert, Std.LawfulEqCmp.compare_eq_iff_eq] at hq hq'
  have hother : ∀ q ∈ i.entries, q ≠ path → collisionKey P q ≠ collisionKey P path :=
    fun q hq => halias q (Std.ExtTreeMap.mem_keys.mpr hq)
  rcases hq with rfl | hq <;> rcases hq' with rfl | hq'
  · rfl
  · exact Classical.byContradiction fun hne => hother q' hq' (Ne.symm hne) hkey.symm
  · exact Classical.byContradiction fun hne => hother q hq hne hkey
  · exact hi q hq q' hq' hkey

/-! ### Two indexes side by side -/

/-- An index during a scan that began at `base`, and the one that only knows the paths of the folder. -/
structure Follows (P : Platform) (seen : Std.ExtTreeMap String Content) (base i i₀ : Index) : Prop where
  /-- They count alike. -/
  seq : i₀.seq = i.seq
  /-- They agree about the paths of the folder. -/
  rows : ∀ path ∈ seen, i₀.entries[path]? = i.entries[path]?
  /-- One knows no others. -/
  own : ∀ path ∈ i₀.entries, path ∈ seen
  /-- The other knows those that it knew before. -/
  others : ∀ path, path ∉ seen → (path ∈ i.entries ↔ path ∈ base.entries)
  /-- And no two aliases. -/
  unaliased : i.Unaliased P

/-- No two paths of a folder are aliases. -/
def Distinct (P : Platform) (seen : Std.ExtTreeMap String Content) : Prop :=
  ∀ path ∈ seen, ∀ other ∈ seen, collisionKey P path = collisionKey P other → path = other

variable {base : Index}

theorem follows_among (hi : i.Unaliased P) (seen : Std.ExtTreeMap String Content) :
    Follows P seen i i (i.among seen) where
  seq := rfl
  rows path hp := by
    rw [among, Std.ExtTreeMap.getElem?_filter']
    cases i.entries[path]? <;> simp [hp]
  own path hp := by
    obtain ⟨hmem, h⟩ := Std.ExtTreeMap.mem_filter.mp hp
    simpa using h
  others _ _ := .rfl
  unaliased := hi

/-- The aliases of a path of the folder are those that it had before. -/
theorem Follows.aliased (h : Follows P seen base i i₀) (hseen : Distinct P seen) (hp : path ∈ seen) :
    i.Aliased P path ↔ base.Aliased P path := by
  have hout {other : String} (hne : other ≠ path) (hkey : collisionKey P other = collisionKey P path) : other ∉ seen :=
    fun hmem => hne (hseen other hmem path hp hkey)
  constructor
  · rintro ⟨other, hmem, hne, hkey⟩
    exact ⟨other, (h.others other (hout hne hkey)).mp hmem, hne, hkey⟩
  · rintro ⟨other, hmem, hne, hkey⟩
    exact ⟨other, (h.others other (hout hne hkey)).mpr hmem, hne, hkey⟩

/-- How an action for a path ends in one and the other. -/
inductive Mirrors (P : Platform) (seen : Std.ExtTreeMap String Content) (base : Index) (path : String) :
    Result (Index × ℕ) → Result (Index × ℕ) → Prop where
  /-- Both fail for the same reason. -/
  | error {e : Error} : Mirrors P seen base path (.error e) (.error e)
  /-- An alias stands in the way. -/
  | alias_ {r₀ : Index × ℕ} : base.Aliased P path → Mirrors P seen base path (.error aliasError) (.ok r₀)
  /-- Both succeed. -/
  | ok {i i₀ : Index} {n : ℕ} : ¬ base.Aliased P path → Follows P seen base i i₀ →
      Mirrors P seen base path (.ok (i, n)) (.ok (i₀, n))

theorem Mirrors.bind {α : Type} {x : Result α} {f f₀ : α → Result (Index × ℕ)}
    (h : ∀ a, x = .ok a → Mirrors P seen base path (f a) (f₀ a)) : Mirrors P seen base path (x >>= f) (x >>= f₀) := by
  cases hx : x with
  | error e => exact .error
  | ok a => exact h a hx

theorem Follows.save (h : Follows P seen base i i₀) (hseen : Distinct P seen) (hp : path ∈ seen) (v : Versions)
    (m : Option Content) (o : Versions) (n : ℕ) : Mirrors P seen base path
      (do let i ← i.save P path v m o; return (i, n)) (do let i ← i₀.save P path v m o; return (i, n)) := by
  have hroom := room_congr h.seq (h.rows path hp) v
  cases hr : i.room path v with
  | error e =>
    rw [save_of_room_error hr, save_of_room_error (hroom.trans hr)]
    exact .error
  | ok _ =>
    have hown : ¬ i₀.Aliased P path := fun ⟨other, hmem, hne, hkey⟩ => hne (hseen other (h.own other hmem) path hp hkey)
    obtain ⟨j₀, hj₀⟩ := (save_of_room (hroom.trans hr) m o).2 hown
    rw [hj₀]
    by_cases ha : base.Aliased P path
    · rw [(save_of_room hr m o).1 ((h.aliased hseen hp).mpr ha)]
      exact .alias_ ha
    obtain ⟨j, hj⟩ := (save_of_room hr m o).2 (mt (h.aliased hseen hp).mp ha)
    rw [hj]
    have hall : (i₀.entries[path]?.all fun l => l.versions ≠ v) = i.entries[path]?.all fun l => l.versions ≠ v := by
      rw [h.rows path hp]
    refine .ok ha ⟨?_, fun q hq => ?_, fun q hq => ?_, fun q hq => ?_, unaliased_save h.unaliased hj⟩
    · obtain ⟨-, -, -, rfl⟩ := save_eq_ok.mp hj
      obtain ⟨-, -, -, rfl⟩ := save_eq_ok.mp hj₀
      simp only [hall, h.seq]
    · rw [save_entries hj, save_entries hj₀, h.rows q hq]
      simp only [nextSeq, h.rows path hp, h.seq]
    · rw [Std.ExtTreeMap.mem_iff_isSome_getElem?, save_entries hj₀] at hq
      split_ifs at hq with hqp
      · rwa [hqp]
      · exact h.own q (Std.ExtTreeMap.mem_iff_isSome_getElem?.mpr hq)
    · have hqp : q ≠ path := fun he => hq (he ▸ hp)
      rw [← h.others q hq, Std.ExtTreeMap.mem_iff_isSome_getElem?, save_entries hj, if_neg hqp,
        ← Std.ExtTreeMap.mem_iff_isSome_getElem?]

/-- A path of the folder is dealt with alike, unless an alias stands in the way. -/
theorem Follows.scanSeen (h : Follows P seen base i i₀) (hseen : Distinct P seen) (hp : path ∈ seen)
    (content : Content) :
    Mirrors P seen base path (i.scanSeen P replica path content) (i₀.scanSeen P replica path content) := by
  have hforget : Follows P seen base (i.forget path) (i₀.forget path) :=
    ⟨h.seq, h.rows, h.own, h.others, h.unaliased⟩
  rw [Index.scanSeen, Index.scanSeen, h.rows path hp]
  cases hl : i.entries[path]? with
  | none =>
    simp only [Option.bind_none, Option.elim_none, reduceCtorEq, if_false]
    exact .bind fun mine _ => .bind fun combined _ => hforget.save hseen hp _ _ _ _
  | some l =>
    simp only [Option.bind_some, Option.elim_some]
    -- a path with a row has no alias
    have hnot : ¬ base.Aliased P path := by
      rw [← h.aliased hseen hp]
      rintro ⟨other, hmem, hne, hkey⟩
      exact hne (h.unaliased other hmem path (Std.ExtTreeMap.mem_iff_isSome_getElem?.mpr (by rw [hl]; rfl)) hkey)
    split_ifs with hadopt hmat
    · exact hforget.save hseen hp _ _ _ _
    · exact hforget.save hseen hp _ _ _ _
    · exact .ok hnot hforget
    · exact .bind fun mine _ => .bind fun combined _ => hforget.save hseen hp _ _ _ _

/-- What a scan of a path writes: the content of that path, and nothing about others. -/
theorem scanSeen_row {content : Content} {n : ℕ} (h : i.scanSeen P replica path content = .ok (i', n)) :
    (∃ l, i'.entries[path]? = some l ∧ l.materialized = some content) ∧
      ∀ q, q ≠ path → i'.entries[q]? = i.entries[q]? := by
  have hsave {v o : Versions} {j : Index} (hj : (i.forget path).save P path v (some content) o = .ok j) :
      (∃ l, j.entries[path]? = some l ∧ l.materialized = some content) ∧
        ∀ q, q ≠ path → j.entries[q]? = i.entries[q]? :=
    ⟨⟨_, (save_entries hj path).trans (if_pos rfl), rfl⟩, fun q hq => (save_entries hj q).trans (if_neg hq)⟩
  rw [scanSeen] at h
  cases hl : i.entries[path]? with
  | none =>
    simp only [hl, Option.bind_none, Option.elim_none, reduceCtorEq, if_false] at h
    obtain ⟨mine, -, h⟩ := bind_eq_ok.mp h
    obtain ⟨combined, -, h⟩ := bind_eq_ok.mp h
    obtain ⟨j, hj, h⟩ := bind_eq_ok.mp h
    obtain ⟨rfl, -⟩ := Prod.mk.inj (pure_eq_ok.mp h)
    exact hsave hj
  | some l =>
    simp only [hl, Option.bind_some, Option.elim_some] at h
    split_ifs at h with hadopt hselected hmat
    · obtain ⟨j, hj, h⟩ := bind_eq_ok.mp h
      obtain ⟨rfl, -⟩ := Prod.mk.inj (pure_eq_ok.mp h)
      exact hsave hj
    · obtain ⟨j, hj, h⟩ := bind_eq_ok.mp h
      obtain ⟨rfl, -⟩ := Prod.mk.inj (pure_eq_ok.mp h)
      exact hsave hj
    · obtain ⟨rfl, -⟩ := Prod.mk.inj (pure_eq_ok.mp h)
      exact ⟨⟨l, hl, hmat⟩, fun _ _ => rfl⟩
    · obtain ⟨mine, -, h⟩ := bind_eq_ok.mp h
      obtain ⟨combined, -, h⟩ := bind_eq_ok.mp h
      obtain ⟨j, hj, h⟩ := bind_eq_ok.mp h
      obtain ⟨rfl, -⟩ := Prod.mk.inj (pure_eq_ok.mp h)
      exact hsave hj

theorem clean_scanSeen (hi : ¬ i.Aliased P path) (content : Content) :
    Clean (i.scanSeen P replica path content) := by
  have hsave (v o : Versions) (n : ℕ) :
      Clean (do let i ← (i.forget path).save P path v (some content) o; return (i, n)) :=
    (clean_save (i := i.forget path) hi v _ o).bind fun _ _ => clean_ok _
  rw [scanSeen]
  cases hl : i.entries[path]? with
  | none =>
    simp only [Option.bind_none, Option.elim_none, reduceCtorEq, if_false]
    exact (clean_edit _ _ _).bind fun _ _ => (clean_ok _).bind fun _ _ => hsave _ _ _
  | some l =>
    simp only [Option.bind_some, Option.elim_some]
    split_ifs
    · exact hsave _ _ _
    · exact hsave _ _ _
    · exact clean_ok _
    · exact (clean_edit _ _ _).bind fun _ _ => (clean_join _ _).bind fun _ _ => hsave _ _ _

/-! ### The whole folder -/

section

variable {l : List (String × Content)} {n : ℕ} {r r₀ : Index × ℕ}

/-- Where no path of the folder has an alias, the scan does not fail on one. -/
theorem clean_forEach (hseen : Distinct P seen) (hl : ∀ e ∈ l, e.1 ∈ seen) (h : Follows P seen base i i₀)
    (hno : ∀ e ∈ l, ¬ base.Aliased P e.1) :
    Clean (forEach (fun i e => i.scanSeen P replica e.1 e.2) l (i, n)) := by
  induction l generalizing i i₀ n with
  | nil => exact clean_ok _
  | cons e l ih =>
    have he : e.1 ∈ seen := hl e (by simp)
    have hstep := @Index.Follows.scanSeen P replica _ _ _ _ _ h hseen he e.2
    refine (clean_scanSeen (mt (h.aliased hseen he).mp (hno e (by simp))) e.2).bind fun ⟨j, m⟩ hj => ?_
    rw [hj] at hstep
    generalize h₀ : i₀.scanSeen P replica e.1 e.2 = r₀ at hstep
    cases hstep with
    | ok _ hstep => exact ih (fun e he => hl e (by simp [he])) hstep fun e he => hno e (by simp [he])

/-- Where the scan succeeds, no path of the folder has an alias, and each of them has its row. -/
theorem forEach_ok (hseen : Distinct P seen) (hl : ∀ e ∈ l, e.1 ∈ seen) (hnodup : (l.map (·.1)).Nodup)
    (h : Follows P seen base i i₀) (hr : forEach (fun i e => i.scanSeen P replica e.1 e.2) l (i, n) = .ok r) :
    r.1.Unaliased P ∧ (∀ e ∈ l, ¬ base.Aliased P e.1) ∧
      (∀ e ∈ l, ∃ row, r.1.entries[e.1]? = some row ∧ row.materialized = some e.2) ∧
      ∀ q, q ∉ l.map (·.1) → r.1.entries[q]? = i.entries[q]? := by
  induction l generalizing i i₀ n with
  | nil =>
    obtain rfl := Except.ok.inj hr
    exact ⟨h.unaliased, by simp, by simp, fun _ _ => rfl⟩
  | cons e l ih =>
    obtain ⟨⟨j, m⟩, hj, hr⟩ := bind_eq_ok.mp hr
    replace hj : i.scanSeen P replica e.1 e.2 = .ok (j, m) := hj
    obtain ⟨hrow, hframe⟩ := scanSeen_row hj
    have hstep := @Index.Follows.scanSeen P replica _ _ _ _ _ h hseen (hl e (by simp)) e.2
    rw [hj] at hstep
    generalize h₀ : i₀.scanSeen P replica e.1 e.2 = r₀ at hstep
    cases hstep with
    | ok hnot hstep =>
      rw [List.map_cons, List.nodup_cons] at hnodup
      obtain ⟨hun, hnone, hrows, hrest⟩ := ih (fun e he => hl e (by simp [he])) hnodup.2 hstep hr
      refine ⟨hun, List.forall_mem_cons.mpr ⟨hnot, hnone⟩, List.forall_mem_cons.mpr ⟨?_, hrows⟩, fun q hq => ?_⟩
      · rw [hrest _ hnodup.1]
        exact hrow
      · rw [List.map_cons, List.mem_cons, not_or] at hq
        rw [hrest q hq.2, hframe q hq.1]

/-- Where a path of the folder has an alias, the scan fails on it, unless it fails in the index that only knows the
paths of the folder. -/
theorem forEach_aliased (hseen : Distinct P seen) (hl : ∀ e ∈ l, e.1 ∈ seen) (h : Follows P seen base i i₀)
    (hr₀ : forEach (fun i e => i.scanSeen P replica e.1 e.2) l (i₀, n) = .ok r₀)
    (ha : ∃ e ∈ l, base.Aliased P e.1) :
    forEach (fun i e => i.scanSeen P replica e.1 e.2) l (i, n) = .error aliasError := by
  induction l generalizing i i₀ n with
  | nil => simp at ha
  | cons e l ih =>
    obtain ⟨⟨j₀, m⟩, hj₀, hr₀⟩ := bind_eq_ok.mp hr₀
    replace hj₀ : i₀.scanSeen P replica e.1 e.2 = .ok (j₀, m) := hj₀
    have hstep := @Index.Follows.scanSeen P replica _ _ _ _ _ h hseen (hl e (by simp)) e.2
    rw [hj₀] at hstep
    generalize hj : i.scanSeen P replica e.1 e.2 = r at hstep
    simp only [forEach, hj]
    cases hstep with
    | alias_ _ => rfl
    | ok hnot hstep =>
      obtain ⟨e', he', ha⟩ := ha
      rcases List.mem_cons.mp he' with rfl | he'
      · exact absurd ha hnot
      · exact ih (fun e he => hl e (by simp [he])) hstep hr₀ ⟨e', he', ha⟩

/-- Nothing is done about a missing path that has no row, so the unique column does not matter. -/
theorem scanMissing_unaliased {approve : Bool} (hi : i.Unaliased P) :
    Clean (i.scanMissing P replica approve path) ∧
      ∀ r, i.scanMissing P replica approve path = .ok r → r.1.Unaliased P ∧
        ∀ q, q ≠ path → r.1.entries[q]? = i.entries[q]? := by
  rw [scanMissing]
  cases hl : i.entries[path]? with
  | none =>
    refine ⟨clean_ok _, fun r hr => ?_⟩
    obtain rfl := pure_eq_ok.mp hr
    exact ⟨hi, fun _ _ => rfl⟩
  | some l =>
    have hnot : ¬ i.Aliased P path := by
      rintro ⟨other, hmem, hne, hkey⟩
      exact hne (hi other hmem path (Std.ExtTreeMap.mem_iff_isSome_getElem?.mpr (by rw [hl]; rfl)) hkey)
    have hsave (v o : Versions) (n : ℕ) :
        Clean (do let i ← i.save P path v none o; return (i.forget path, n)) ∧
          ∀ r, (do let i ← i.save P path v none o; return (i.forget path, n)) = .ok r → r.1.Unaliased P ∧
            ∀ q, q ≠ path → r.1.entries[q]? = i.entries[q]? := by
      refine ⟨(clean_save hnot v none o).bind fun _ _ => clean_ok _, fun r hr => ?_⟩
      obtain ⟨j, hj, hr⟩ := bind_eq_ok.mp hr
      obtain rfl := pure_eq_ok.mp hr
      have hun : j.Unaliased P := unaliased_save hi hj
      exact ⟨hun, fun q hq => (save_entries hj q).trans (if_neg hq)⟩
    dsimp only
    split_ifs
    · exact hsave _ _ _
    · refine ⟨clean_ok _, fun r hr => ?_⟩
      obtain rfl := pure_eq_ok.mp hr
      exact ⟨hi, fun _ _ => rfl⟩
    · refine ⟨(clean_edit _ _ _).bind fun _ _ => (clean_join _ _).bind fun _ _ => (hsave _ _ _).1, fun r hr => ?_⟩
      obtain ⟨deleted, -, hr⟩ := bind_eq_ok.mp hr
      obtain ⟨combined, -, hr⟩ := bind_eq_ok.mp hr
      exact (hsave _ _ _).2 r hr
    · refine ⟨clean_ok _, fun r hr => ?_⟩
      obtain rfl := pure_eq_ok.mp hr
      exact ⟨hi, fun _ _ => rfl⟩

theorem forEach_scanMissing {approve : Bool} {paths : List String} (hi : i.Unaliased P) :
    Clean (forEach (Index.scanMissing P replica approve) paths (i, n)) ∧
      ∀ r, forEach (Index.scanMissing P replica approve) paths (i, n) = .ok r →
        ∀ q, q ∉ paths → r.1.entries[q]? = i.entries[q]? := by
  induction paths generalizing i n with
  | nil =>
    refine ⟨clean_ok _, fun r hr => ?_⟩
    obtain rfl := Except.ok.inj hr
    exact fun _ _ => rfl
  | cons path paths ih =>
    obtain ⟨hclean, hok⟩ := @scanMissing_unaliased P replica path _ approve hi
    refine ⟨hclean.bind fun ⟨j, m⟩ hj => (ih (hok _ hj).1).1, fun r hr q hq => ?_⟩
    obtain ⟨⟨j, m⟩, hj, hr⟩ := bind_eq_ok.mp hr
    rw [List.mem_cons, not_or] at hq
    obtain ⟨hun, hframe⟩ := hok _ hj
    rw [(ih hun).2 r hr q hq.2, hframe q hq.1]

end

/-- The scan does not fail on the unique column, and it writes the row of each path of the folder. -/
def Scannable (P : Platform) (replica : String) (approve : Bool) (seen : Std.ExtTreeMap String Content)
    (i : Index) : Prop :=
  i.scan P replica approve seen ≠ .error aliasError ∧
    ∀ i' report, i.scan P replica approve seen = .ok (i', report) →
      ∀ (path : String) (content : Content), seen[path]? = some content → ∃ row : Row, i'.entries[path]? = some row ∧ row.materialized = some content

/-- A folder without aliases is scannable when none of its paths has an alias among the paths that the index knows,
and where it can be scanned in the index that only knows its own paths, only then. -/
theorem scannable_iff {approve : Bool} (hi : i.Unaliased P) (hseen : Distinct P seen) :
    ((∀ path ∈ seen, ¬ i.Aliased P path) → i.Scannable P replica approve seen) ∧
      (∀ r, i.scan P replica approve seen = .ok r → ∀ path ∈ seen, ¬ i.Aliased P path) ∧
      ∀ r₀, (i.among seen).scan P replica approve seen = .ok r₀ →
        (i.Scannable P replica approve seen ↔ ∀ path ∈ seen, ¬ i.Aliased P path) := by
  have hfollows := follows_among hi seen
  have hmem : ∀ e ∈ seen.toList, e.1 ∈ seen := fun e he => Std.ExtTreeMap.mem_iff_isSome_getElem?.mpr (by
    rw [Std.ExtTreeMap.mem_toList_iff_getElem?_eq_some.mp he]; rfl)
  have hlist : ∀ path ∈ seen, ∃ e ∈ seen.toList, e.1 = path := fun path hp => by
    obtain ⟨content, hc⟩ := Option.isSome_iff_exists.mp (Std.ExtTreeMap.mem_iff_isSome_getElem?.mp hp)
    exact ⟨(path, content), Std.ExtTreeMap.mem_toList_iff_getElem?_eq_some.mpr hc, rfl⟩
  have hnodup : (seen.toList.map (·.1)).Nodup := List.pairwise_map.mpr <|
    Std.ExtTreeMap.distinct_keys_toList.imp fun h he => h (by rw [he]; exact Std.ReflCmp.compare_self)
  have hfree : (∀ path ∈ seen, ¬ i.Aliased P path) → i.Scannable P replica approve seen := by
    intro hno
    refine ⟨(clean_forEach hseen hmem hfollows fun e he => hno e.1 (hmem e he)).bind fun ⟨j, n⟩ hj => ?_,
      fun i' report hr path content hp => ?_⟩
    · obtain ⟨hun, -⟩ := forEach_ok hseen hmem hnodup hfollows hj
      exact (forEach_scanMissing hun).1.bind fun _ _ => clean_ok _
    · obtain ⟨⟨j, n⟩, hj, hr⟩ := bind_eq_ok.mp hr
      obtain ⟨⟨k, m⟩, hk, hr⟩ := bind_eq_ok.mp hr
      obtain ⟨rfl, -⟩ := Prod.mk.inj (pure_eq_ok.mp hr)
      obtain ⟨hun, -, hrows, -⟩ := forEach_ok hseen hmem hnodup hfollows hj
      have hkept := (forEach_scanMissing hun).2 _ hk path fun hmissing => by
        have := of_decide_eq_true (List.mem_filter.mp hmissing).2
        exact this (Std.ExtTreeMap.mem_iff_isSome_getElem?.mpr (by rw [hp]; rfl))
      rw [hkept]
      exact hrows (path, content) (Std.ExtTreeMap.mem_toList_iff_getElem?_eq_some.mpr hp)
  refine ⟨hfree, fun r hr path hp => ?_, fun r₀ hr₀ => ⟨fun h path hp ha => h.1 ?_, hfree⟩⟩
  · obtain ⟨⟨j, n⟩, hj, -⟩ := bind_eq_ok.mp hr
    obtain ⟨e, he, rfl⟩ := hlist path hp
    exact (forEach_ok hseen hmem hnodup hfollows hj).2.1 e he
  · obtain ⟨⟨j₀, n⟩, hj₀, -⟩ := bind_eq_ok.mp hr₀
    obtain ⟨e, he, rfl⟩ := hlist path hp
    rw [scan, forEach_aliased hseen hmem hfollows hj₀ ⟨e, he, ha⟩]
    rfl

theorem Chain.unaliased {approve settle : Bool} (hi : i.Unaliased P) (h : Chain P replica approve settle i i') :
    i'.Unaliased P := by
  induction h with
  | refl => exact hi
  | tail _ h ih =>
    cases h with
    | save h =>
      obtain ⟨v, m, o, h⟩ := h.saved
      exact unaliased_save ih h
    | aside h | settle _ h =>
      rw [Unaliased, h.entries]
      exact ih

end Index

namespace Share

variable {β : Type} {W : Wire β}

/-- No share ever knows two aliases. -/
theorem Reachable.unaliased {s : Share β} (h : Reachable P W s) : s.index.Unaliased P := by
  refine (h.induction (I := Index.Unaliased P) (fun epoch path hp => ?_) (fun i epoch pending hi => hi)
    fun _ _ _ hi hc => hc.unaliased hi).1
  simp [Index.create] at hp

/-- **What the index knows of absent paths.** In every state that a share may be in, a folder without aliases is
scannable when none of its paths is an alias of a different path that the index knows; and where the folder can be
scanned in the index that only knows its own paths, only then. -/
theorem scan_aliases (P : Platform) (W : Wire β) (s : Share β) (h : Reachable P W s) (replica : String) (approve : Bool)
    (seen : Std.ExtTreeMap String Content) (hseen : Index.Distinct P seen) :
    ((∀ path ∈ seen, ¬ s.index.Aliased P path) → s.index.Scannable P replica approve seen) ∧
      (∀ r, s.index.scan P replica approve seen = .ok r → ∀ path ∈ seen, ¬ s.index.Aliased P path) ∧
      ∀ r₀, (s.index.among seen).scan P replica approve seen = .ok r₀ →
        (s.index.Scannable P replica approve seen ↔ ∀ path ∈ seen, ¬ s.index.Aliased P path) :=
  Index.scannable_iff h.unaliased hseen

/-! ### The scan of a share -/

section scan

variable {i : Index} {seen : Std.ExtTreeMap String Content}

variable (P) in
/-- A step of the visit: no alias of a path that was seen is taken note of. -/
structure Collects (s s' : Share β) : Prop where
  /-- The index stays. -/
  index : s'.index = s.index
  /-- What was seen has no aliases. -/
  seen : Index.Distinct P s.seen → Index.Distinct P s'.seen

/-- A step that leaves the index and what was seen alone. -/
def Leaves (s s' : Share β) : Prop := s'.index = s.index ∧ s'.seen = s.seen

theorem Leaves.collects {s s' : Share β} (h : Leaves s s') : Collects P s s' := ⟨h.1, fun hs => h.2 ▸ hs⟩

theorem leaves_files (s : Share β) (fs : Files) : Leaves s (HasFiles.setFiles fs s) := ⟨rfl, rfl⟩

theorem leaves_checkRoot : Tries Leaves (fun _ => True) (checkRoot : Io (Share β) Unit) :=
  Tries.ofOnly (only_checkRoot (fun _ _ _ => ⟨rfl, rfl⟩) fun _ s => leaves_files s _)

theorem leaves_capture (path : String) : Tries Leaves (fun _ => True) (capture P path : Io (Share β) Content) := by
  have hfile : Only (fun _ act => ∀ s, Leaves s (act s).2) (Root.file path : Io (Share β) ℕ) :=
    only_file (fun _ s => leaves_files s _) path
  have hobject : ∀ hash, Only (fun _ act => ∀ s, Leaves s (act s).2) (objectManifest P hash : Io (Share β) Manifest) :=
    fun hash => (@talk_objectManifest _ P (fun _ => False) (fun _ _ => False) hash).mono fun γ act h s => by
      cases h with
      | look f => exact ⟨rfl, rfl⟩
      | send m hm => exact hm.elim
      | read f hf => exact hf.elim
  have hcreate : ∀ hash bytes, Only (fun _ act => ∀ s, Leaves s (act s).2) (createObject hash bytes : Io (Share β) Unit) :=
    fun hash bytes => Only.act fun s => by
      cases s.objects[hash]? with
      | none => exact ⟨rfl, rfl⟩
      | some _ => exact ⟨rfl, rfl⟩
  refine Tries.ofOnly (hfile.andThen fun file => (only_fromFile P (fun _ s => leaves_files s _) file).andThen fun manifest =>
    (only_lift _).andThen fun object => (Only.act fun _ => ⟨rfl, rfl⟩).andThen fun found => ?_)
  split
  · exact (hobject object).andThen fun _ => (only_lift _).andThen fun _ => only_pure _
  · exact hfile.andThen fun _ => (only_call (fun _ s => leaves_files s _) _).andThen fun _ =>
      (only_lift _).andThen fun _ => (hcreate _ _).andThen fun _ => only_pure _

/-- A path is taken note of when it is no alias. -/
theorem collects_recordSeen (path : String) (content : Content) :
    Tries (Collects P) (fun _ => True) (recordSeen P path content : Io (Share β) Unit) := by
  refine Tries.act fun s => ?_
  split_ifs with hfree
  · refine ⟨rfl, fun hs p hp q hq hkey => ?_⟩
    simp only [Std.ExtTreeMap.mem_insert, Std.LawfulEqCmp.compare_eq_iff_eq] at hp hq
    have hold : ∀ r ∈ s.seen, collisionKey P r ≠ collisionKey P path := fun r hr =>
      hfree r (Std.ExtTreeMap.mem_keys.mpr hr)
    rcases hp with rfl | hp <;> rcases hq with rfl | hq
    · rfl
    · exact absurd hkey.symm (hold q hq)
    · exact absurd hkey (hold p hp)
    · exact hs p hp q hq hkey
  · exact ⟨rfl, id⟩

theorem collects_visit : Tries (Collects P) (fun _ => True) (Root.visit fun path isDir => do
    let content ← if isDir then pure Content.directory else capture P path
    recordSeen P path content : Io (Share β) Unit) := by
  have hcapture : ∀ path, Tries (Collects P) (fun _ => True) (capture P path : Io (Share β) Content) := fun path =>
    Does.weaken (leaves_capture path) fun _ _ h => h.collects
  refine tries_visit (fun s fs => (leaves_files s fs).collects) fun path isDir => ?_
  split
  · exact (Tries.ofExcept fun _ _ => trivial).andThen fun _ _ => collects_recordSeen _ _
  · exact (hcapture path).andThen fun _ _ => collects_recordSeen _ _

variable (P) in
/-- The visited folder has no alias, and all of it is in the rows. -/
structure Visited (i : Index) (s : Share β) : Prop where
  /-- What was seen has no aliases. -/
  distinct : Index.Distinct P s.seen
  /-- Nor has it any among the paths that the index knew. -/
  free : ∀ path ∈ s.seen, ¬ i.Aliased P path
  /-- It stands in the rows. -/
  rows : ∀ (path : String) (content : Content), s.seen[path]? = some content →
    ∃ row : Row, s.index.entries[path]? = some row ∧ row.materialized = some content

theorem stable_sameIndex : Stable (relying (β := β)) fun s => s.index = i := fun _ _ h hs => h.index.trans hs

theorem stable_distinct : Stable (relying (β := β)) fun s => s.index = i ∧ Index.Distinct P s.seen :=
  fun _ _ h hs => ⟨h.index.trans hs.1, h.seen ▸ hs.2⟩

theorem stable_seen : Stable (relying (β := β)) fun s => s.index = i ∧ s.seen = seen :=
  fun _ _ h hs => ⟨h.index.trans hs.1, h.seen.trans hs.2⟩

theorem triple_scanVisible (hi : i.Unaliased P) (approve : Bool) : Triple relying (fun s : Share β => s.index = i)
    (scanVisible P approve) (outcome (fun _ => Visited P i) fun _ _ => True) := by
  refine Triple.andThen (Q := fun _ s => s.index = i ∧ Index.Distinct P s.seen) (relying_act stable_sameIndex
    (fun _ => stable_distinct) fun s hs => ⟨hs, fun path hp => absurd hp (by simp)⟩) fun _ => ?_
  refine (relying_tries collects_visit stable_distinct fun s s' hs h => ⟨h.index.trans hs.1, h.seen hs.2⟩).andThen fun _ => ?_
  refine (relying_tries leaves_checkRoot stable_distinct fun s s' hs h => ⟨h.1.trans hs.1, h.2 ▸ hs.2⟩).andThen fun _ => ?_
  refine Triple.andThen (Q := fun r s => (s.index = i ∧ s.seen = r.2.2) ∧ r.2.1 = i ∧ Index.Distinct P r.2.2)
    (relying_act stable_distinct (fun _ => stable_seen.and fun _ _ _ h => h) fun s hs => ⟨⟨hs.1, rfl⟩, hs⟩)
    fun r => Triple.fact fun hr => ?_
  obtain ⟨config, index, seen⟩ := r
  obtain ⟨rfl, hdistinct⟩ := hr
  refine Triple.andThen (Q := fun r s => (s.index = index ∧ s.seen = seen) ∧
    index.scan P config.replica approve seen = .ok r) (Triple.ofExcept stable_seen (fun _ _ => trivial) fun s hs => ?_)
    fun r => Triple.fact fun hscan => ?_
  · cases hr : index.scan P config.replica approve seen with
    | error e => trivial
    | ok r => exact ⟨hs, rfl⟩
  obtain ⟨index', report⟩ := r
  have hfree := (Index.scannable_iff hi hdistinct).2.1 _ hscan
  refine (relying_tries leaves_checkRoot stable_seen fun s s' hs h => ⟨h.1.trans hs.1, h.2.trans hs.2⟩).andThen fun _ => ?_
  refine Triple.andThen (Q := fun _ s => s.index = index' ∧ s.seen = seen) (relying_act stable_seen
    (fun _ => stable_seen) fun s hs => ⟨rfl, hs.2⟩) fun _ => ?_
  refine Triple.ofExcept stable_seen (fun _ _ => trivial) fun s hs => ?_
  obtain ⟨rfl, rfl⟩ := hs
  exact ⟨hdistinct, hfree, ((Index.scannable_iff hi hdistinct).1 hfree).2 _ _ hscan⟩

/-- **No alias gets past a scan.** -/
theorem triple_visited (hi : i.Unaliased P) (approve : Bool) : Triple relying (fun s : Share β => s.index = i)
    (Share.scan P approve) (outcome (fun _ => Visited P i) fun _ _ => True) := by
  have hkeep : ∀ s s' : Share β, s.index = i → Leaves s s' → s'.index = i := fun s s' hs h => h.1.trans hs
  refine (relying_tries (Tries.act fun _ => ⟨rfl, rfl⟩) stable_sameIndex hkeep).andThen fun pending => ?_
  refine (relying_tries (Tries.ofOnly (only_lift _)) stable_sameIndex hkeep).andThen fun _ => ?_
  refine (relying_tries leaves_checkRoot stable_sameIndex hkeep).andThen fun _ => ?_
  exact (relying_tries (Tries.ofOnly (only_recover P fun _ s => leaves_files s _)) stable_sameIndex hkeep).andThen fun _ =>
    triple_scanVisible hi approve

/-- A scan of a reachable share that ends without an error has visited a folder without aliases. -/
theorem visited_of_scan {s t : Share β} (h : Reachable P W s) {approve : Bool} {report : ScanReport}
    (hrun : Prog.Reaches Outside (Share.scan P approve) s (.ret (.ok report)) t) : Visited P s.index t :=
  ((triple_visited h.unaliased approve s rfl).reaches hrun).post_of_ret

end scan

/-- The share after its directory was renamed in letter case. -/
def renamed : Share Unit where
  __ := scanned
  files := ((Files.empty.setInode 0 ⟨utf8 "marker", 0⟩).add [".everywhere-folder"] (.file 0)).add ["D"] .dir

theorem reachable_renamed : Reachable .sample silent renamed :=
  .run (.scan false) reachable_scanned (.env .refl ⟨rfl, rfl, rfl, rfl, rfl, rfl⟩)

/-- A folder with one directory. -/
def only (path : String) : Std.ExtTreeMap String Content := (∅ : Std.ExtTreeMap String Content).insert path .directory

theorem distinct_only (P : Platform) (path : String) : Index.Distinct P (only path) := by
  intro q hq q' hq' _
  simp only [only, Std.ExtTreeMap.mem_insert, Std.LawfulEqCmp.compare_eq_iff_eq] at hq hq'
  simp_all

/-- A directory of another name does not stand in the way. -/
theorem scan_aliases_scanned : scanned.index.Scannable .sample scanned.config.replica false (only "e") := by
  have hkeys : ∀ path ∈ (only "e").keys, ∀ other ∈ scanned.index.entries.keys, other ≠ path →
      collisionKey .sample other ≠ collisionKey .sample path := by decide +kernel
  refine (scan_aliases .sample silent scanned reachable_scanned _ false (only "e") (distinct_only _ _)).1 ?_
  rintro path hp ⟨other, hmem, hne, hkey⟩
  exact hkeys path (Std.ExtTreeMap.mem_keys.mpr hp) other (Std.ExtTreeMap.mem_keys.mpr hmem) hne hkey

/-- After the directory was renamed, every scan fails on the unique column. -/
theorem scan_renamed : Reachable .sample silent renamed ∧ Index.Distinct .sample (only "D") ∧
    (Fallible.run ((Op.scan false).program .sample silent) renamed).1 = .error aliasError ∧
    (Fallible.run ((Op.scan true).program .sample silent) renamed).1 = .error aliasError ∧
    ¬ renamed.index.Scannable .sample renamed.config.replica false (only "D") :=
  ⟨reachable_renamed, distinct_only _ _, by decide +kernel, by decide +kernel, fun h => h.1 (by decide +kernel)⟩

end Share
end Everywhere
