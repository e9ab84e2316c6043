import Everywhere.Folder.Root
import Everywhere.Versions.Clock

/-!
# Scans of a folder

An index keeps for each path the hash of its content, or that it was deleted, and a clock; the paths that are missing and
were not approved for deletion are pending. `scan` compares the index with the folder in two loops, over the files that are
there and over the entries that are not, and returns what has changed.

A folder is a `Tree`: what is in a directory, one item after the other. A name may not be Unicode. The checks of the
root of the folder before and after it is walked are given by their outcomes.

Nothing about a path depends on another one (`next`), so the history of a path is that of a machine with four states:
unknown, present, pending and deleted.

* `scan_tracks` — **the index is the history of the folder**: hashes, pending paths, clocks and events are those that
  follow from what was found in all scans so far.
-/

namespace Everywhere.Scan

open Library

/-! ### Trees -/

/-- An item that is not a directory. -/
inductive Kind where
  /-- A file. -/
  | file (bytes : Bytes)
  /-- A symbolic link. -/
  | link
  /-- Another thing. -/
  | special
  deriving DecidableEq

/-- What is in a directory. -/
inductive Tree where
  /-- Nothing more. -/
  | nil
  /-- An item and the rest. -/
  | leaf (name : Option String) (kind : Kind) (rest : Tree)
  /-- A directory and the rest. -/
  | dir (name : Option String) (items rest : Tree)
  deriving DecidableEq

/-- The files that are there, with the hashes of their contents. -/
abbrev Found := Std.ExtTreeMap String String

/-- The marker of a folder. -/
def marker : String := ".everywhere-folder"

/-- A name that can be stored. -/
def portable : Option String → Result String
  | none => .error (.message "non-UTF-8 filename unsupported")
  | some name => do
    ensure ('\\' ∉ name.toList) "backslash filename is not portable; scan paused"
    pure name

/-- A name of the program's own. -/
def reserved (name : String) : Bool := name = marker || ".everywhere-".toList.isPrefixOf name.toList

/-- Walk through a directory. -/
def collect (P : Platform) (above : List String) : Tree → Found → Result Found
  | .nil, found => pure found
  | .leaf name kind rest, found => do
    let name ← portable name
    if reserved name then collect P above rest found
    else
      match kind with
      | .link => .error (.message "symlink in synchronized folder; scan paused")
      | .special => .error (.message "special file in synchronized folder; scan paused")
      | .file bytes => do
        ensure (bytes.length ≤ maxSize) "file exceeds 1 TiB alpha limit"
        collect P above rest (found.insert ("/".intercalate (above ++ [name])) (P.blake3 bytes))
  | .dir name items rest, found => do
    let name ← portable name
    if reserved name then collect P above rest found
    else do
      let found ← collect P (above ++ [name]) items found
      collect P above rest found

/-! ### The index -/

/-- What happened with a path. -/
inductive Change where
  /-- It was not there. -/
  | created
  /-- It had another content. -/
  | modified
  /-- It is missing, and this is approved. -/
  | deleted
  /-- It is missing, and this is not approved. -/
  | deletionPending
  /-- It was missing. -/
  | deletionCancelled
  deriving DecidableEq

/-- An event. -/
structure Event where
  /-- The path. -/
  path : String
  /-- What happened with it. -/
  change : Change
  deriving DecidableEq

/-- What is kept of a path. -/
structure Entry where
  /-- The hash of its content, unless it was deleted. -/
  hash : Option String
  /-- Its clock. -/
  clock : Clock
  deriving DecidableEq

/-- An index. -/
structure Index where
  /-- The name of the device. -/
  device : String
  /-- The paths. -/
  entries : Std.ExtTreeMap String Entry
  /-- The missing paths that are not approved. -/
  pending : Std.ExtTreeSet String
  deriving DecidableEq

/-- An index in which there is nothing. -/
def Index.empty (device : String) : Index := ⟨device, ∅, ∅⟩

/-- Make an index. -/
def Index.create (device : String) : Result Index := do
  let _ ← Clock.default.advance device
  pure (.empty device)

/-- How far a scan is. -/
structure Progress where
  /-- The paths. -/
  entries : Std.ExtTreeMap String Entry
  /-- The missing paths that are not approved. -/
  pending : Std.ExtTreeSet String
  /-- What has happened. -/
  events : List Event

/-- A file that is there. -/
def seen (device : String) (old : Std.ExtTreeMap String Entry) (p : Progress) (file : String × String) : Result Progress := do
  let prior := old[file.1]?
  let cancelled := if p.pending.contains file.1 then [⟨file.1, .deletionCancelled⟩] else []
  let p := { p with pending := p.pending.erase file.1, events := p.events ++ cancelled }
  if prior.bind Entry.hash = some file.2 then pure p
  else do
    let clock ← (prior.elim Clock.default Entry.clock).advance device
    let change := if (prior.bind Entry.hash).isSome then .modified else .created
    pure { p with entries := p.entries.insert file.1 ⟨some file.2, clock⟩, events := p.events ++ [⟨file.1, change⟩] }

/-- A file that is not there. -/
def gone (device : String) (approve : Bool) (p : Progress) (prior : String × Entry) : Result Progress :=
  if approve then do
    let clock ← prior.2.clock.advance device
    pure
      { entries := if p.entries.contains prior.1 then p.entries.insert prior.1 ⟨none, clock⟩ else p.entries
        pending := p.pending.erase prior.1
        events := p.events ++ [⟨prior.1, .deleted⟩] }
  else if p.pending.contains prior.1 then pure p
  else pure { p with pending := p.pending.insert prior.1, events := p.events ++ [⟨prior.1, .deletionPending⟩] }

/-- A scan: whether deletions are approved, what is in the folder, and what the checks of its root say. -/
structure Attempt where
  /-- Deletions are approved. -/
  approve : Bool
  /-- The check before. -/
  before : Result Unit
  /-- What is in the folder. -/
  tree : Tree
  /-- The check after. -/
  after : Result Unit

/-- Walk through the folder. -/
def Attempt.found (P : Platform) (a : Attempt) : Result Found := do
  a.before
  let found ← collect P [] a.tree ∅
  a.after
  pure found

/-- The paths that are not there any more. -/
def Index.deleted (i : Index) (found : Found) : List (String × Entry) :=
  i.entries.toList.filter fun e => e.2.hash.isSome && !found.contains e.1

/-- The two loops. -/
def Index.compare (i : Index) (approve : Bool) (found : Found) : Result Progress := do
  let p ← found.toList.foldlM (seen i.device i.entries) ⟨i.entries, i.pending, []⟩
  (i.deleted found).foldlM (gone i.device approve) p

/-- Compare the index with the folder. -/
def Index.scan (P : Platform) (i : Index) (a : Attempt) : Result (List Event) × Index :=
  match a.found P >>= i.compare a.approve with
  | .ok p => (.ok p.events, { i with entries := p.entries, pending := p.pending })
  | .error e => (.error e, i)

/-! ### Histories -/

/-- A scan that has come to its end: whether deletions were approved, and what was found. -/
structure Look where
  /-- Deletions were approved. -/
  approve : Bool
  /-- What was found. -/
  found : Found

/-- The index and the scans that have come to their ends, the last one first. -/
structure History where
  /-- The index. -/
  index : Index
  /-- The scans. -/
  looks : List Look

/-- One more scan. -/
def History.record (P : Platform) (h : History) (a : Attempt) : History :=
  match a.found P, h.index.scan P a with
  | .ok found, (.ok _, index) => ⟨index, ⟨a.approve, found⟩ :: h.looks⟩
  | _, (_, index) => ⟨index, h.looks⟩

/-- Some scans, one after the other. -/
def run (P : Platform) (device : String) (attempts : List Attempt) : History :=
  attempts.foldl (History.record P) ⟨.empty device, []⟩

/-- The path is there with a content. -/
def Present (path hash : String) (looks : List Look) : Prop :=
  ∃ l older, looks = l :: older ∧ l.found[path]? = some hash

/-- The path was there with a content, and since then it is missing and was not approved. -/
def Unapproved (path hash : String) (looks : List Look) : Prop :=
  ∃ newer l older, looks = newer ++ l :: older ∧ newer ≠ [] ∧ l.found[path]? = some hash ∧
    ∀ r ∈ newer, r.found[path]? = none ∧ r.approve = false

/-- The content that a path counts as having: the one that is there, or that was there when it is missing and not approved. -/
def held (path : String) : List Look → Option String
  | [] => none
  | l :: older =>
    match l.found[path]? with
    | some hash => some hash
    | none => if l.approve then none else held path older

/-- The path is missing and not approved. -/
def missing (path : String) : List Look → Bool
  | [] => false
  | l :: older => l.found[path]?.isNone && !l.approve && (held path older).isSome

/-- The number of creations, content changes and approved deletions of a path. -/
def edits (path : String) : List Look → ℕ
  | [] => 0
  | l :: older => (if held path (l :: older) = held path older then 0 else 1) + edits path older

/-- What a scan has changed for a path. -/
def differences (path : String) (l : Look) (older : List Look) : List Change :=
  (if missing path older ∧ l.found[path]?.isSome then [.deletionCancelled] else []) ++
    (match held path older, held path (l :: older) with
      | none, none => []
      | none, some _ => [.created]
      | some hash, some hash' => if hash = hash' then [] else [.modified]
      | some _, none => [.deleted]) ++
    if missing path (l :: older) ∧ ¬ missing path older then [.deletionPending] else []

variable {P : Platform} {path hash device : String} {looks older : List Look} {l : Look}

theorem unapproved_cons : Unapproved path hash (l :: older) ↔
    l.found[path]? = none ∧ l.approve = false ∧ (Present path hash older ∨ Unapproved path hash older) := by
  constructor
  · rintro ⟨newer, r, rest, heq, hne, hr, hnewer⟩
    cases newer with
    | nil => exact absurd rfl hne
    | cons l' newer =>
      obtain ⟨rfl, rfl⟩ := List.cons.inj heq
      obtain ⟨hfound, happrove⟩ := hnewer l (by simp)
      refine ⟨hfound, happrove, ?_⟩
      by_cases hnil : newer = []
      · subst hnil
        exact .inl ⟨r, rest, rfl, hr⟩
      · exact .inr ⟨newer, r, rest, rfl, hnil, hr, fun q hq => hnewer q (by simp [hq])⟩
  · rintro ⟨hfound, happrove, ⟨r, rest, rfl, hr⟩ | ⟨newer, r, rest, rfl, -, hr, hnewer⟩⟩
    · refine ⟨[l], r, rest, rfl, by simp, hr, ?_⟩
      intro q hq
      obtain rfl := List.mem_singleton.mp hq
      exact ⟨hfound, happrove⟩
    · refine ⟨l :: newer, r, rest, rfl, by simp, hr, ?_⟩
      intro q hq
      rcases List.mem_cons.mp hq with rfl | hq
      · exact ⟨hfound, happrove⟩
      · exact hnewer q hq

/-- **A path counts as having a content** when it is there, or missing and not approved. -/
theorem held_eq_some : held path looks = some hash ↔ Present path hash looks ∨ Unapproved path hash looks := by
  induction looks with
  | nil =>
    refine ⟨fun h => (by cases h), ?_⟩
    rintro (⟨l, older, h, -⟩ | ⟨newer, l, older, h, -⟩)
    · cases h
    · simp at h
  | cons l older ih =>
    have hpresent : Present path hash (l :: older) ↔ l.found[path]? = some hash := by
      constructor
      · rintro ⟨r, rest, heq, hr⟩
        obtain ⟨rfl, rfl⟩ := List.cons.inj heq
        exact hr
      · exact fun h => ⟨l, older, rfl, h⟩
    rw [unapproved_cons, hpresent, ← ih, held]
    cases hfound : l.found[path]? with
    | some hash' => simp
    | none =>
      by_cases happrove : l.approve = true
      · simp [happrove]
      · simp [happrove]

theorem held_of_missing (h : missing path looks = true) : (held path looks).isSome = true := by
  obtain _ | ⟨l, older⟩ := looks
  · cases h
  · rw [missing, Bool.and_eq_true, Bool.and_eq_true, Option.isNone_iff_eq_none, Bool.not_eq_true'] at h
    obtain ⟨⟨hfound, happrove⟩, hheld⟩ := h
    rw [held, hfound, happrove]
    exact hheld

theorem missing_eq_false (h : held path looks = none) : missing path looks = false := by
  by_contra hmissing
  have hsome := held_of_missing (Bool.eq_true_of_not_eq_false hmissing)
  rw [h] at hsome
  cases hsome

theorem missing_iff : missing path looks = true ↔ ∃ hash, Unapproved path hash looks := by
  cases looks with
  | nil =>
    refine ⟨fun h => (by cases h), ?_⟩
    rintro ⟨hash, newer, l, older, h, -⟩
    simp at h
  | cons l older =>
    simp only [unapproved_cons, ← held_eq_some, missing, Bool.and_eq_true, Option.isNone_iff_eq_none,
      Bool.not_eq_true', Option.isSome_iff_exists, exists_and_left, and_assoc]

/-! ### Loops over distinct keys -/

/-- What a loop does at a key is done by the step with that key. -/
theorem foldlM_keyed {ε σ α κ β : Type} {step : σ → α → Except ε σ} {key : α → κ} {view : κ → σ → β} {R : α → β → β → Prop}
    (hstep : ∀ s a s', step s a = .ok s' →
      R a (view (key a) s) (view (key a) s') ∧ ∀ k, k ≠ key a → view k s' = view k s)
    (l : List α) (hl : (l.map key).Nodup) {s s' : σ} (h : l.foldlM step s = .ok s') :
    (∀ a ∈ l, R a (view (key a) s) (view (key a) s')) ∧ ∀ k, k ∉ l.map key → view k s' = view k s := by
  induction l generalizing s with
  | nil =>
    obtain rfl := Except.ok.inj h
    exact ⟨fun a ha => absurd ha List.not_mem_nil, fun k _ => rfl⟩
  | cons a l ih =>
    rw [List.foldlM_cons] at h
    obtain ⟨t, ht, hrest⟩ := bind_eq_ok.mp h
    rw [List.map_cons, List.nodup_cons] at hl
    obtain ⟨hself, hother⟩ := hstep s a t ht
    obtain ⟨hmem, hout⟩ := ih hl.2 hrest
    constructor
    · intro b hb
      rcases List.mem_cons.mp hb with rfl | hb
      · rw [hout _ hl.1]
        exact hself
      · have hne : key b ≠ key a := fun h => hl.1 (h ▸ List.mem_map_of_mem hb)
        rw [← hother _ hne]
        exact hmem b hb
    · intro k hk
      rw [List.map_cons, List.mem_cons, not_or] at hk
      rw [hout k hk.2, hother k hk.1]

/-- A loop whose steps change nothing. -/
theorem foldlM_same {ε σ α : Type} {step : σ → α → Except ε σ} {s : σ} (l : List α) (h : ∀ a ∈ l, step s a = .ok s) :
    l.foldlM step s = .ok s := by
  induction l with
  | nil => rfl
  | cons a l ih =>
    rw [List.foldlM_cons, h a (by simp)]
    exact ih fun b hb => h b (List.mem_cons_of_mem _ hb)

theorem nodup_keys {β : Type} (m : Std.ExtTreeMap String β) : (m.toList.map Prod.fst).Nodup :=
  List.pairwise_map.mpr (m.distinct_keys_toList.imp fun h he => h (by rw [he]; exact Std.ReflCmp.compare_self))

/-! ### One path -/

/-- What a scan knows of a path. -/
structure View where
  /-- What is kept of it. -/
  entry : Option Entry
  /-- It is pending. -/
  pending : Bool
  /-- What has happened with it. -/
  changes : List Change

/-- The path in a scan. -/
def Progress.view (path : String) (p : Progress) : View :=
  ⟨p.entries[path]?, p.pending.contains path, (p.events.filter (·.path = path)).map (·.change)⟩

/-- The path is there. -/
def View.seen (device : String) (prior : Option Entry) (hash : String) (v : View) : Result View := do
  let cancelled := if v.pending then [.deletionCancelled] else []
  if prior.bind Entry.hash = some hash then pure ⟨v.entry, false, v.changes ++ cancelled⟩
  else do
    let clock ← (prior.elim Clock.default Entry.clock).advance device
    let change := if (prior.bind Entry.hash).isSome then .modified else .created
    pure ⟨some ⟨some hash, clock⟩, false, v.changes ++ cancelled ++ [change]⟩

/-- The path is not there. -/
def View.gone (device : String) (approve : Bool) (prior : Entry) (v : View) : Result View :=
  if approve then do
    let clock ← prior.clock.advance device
    pure ⟨if v.entry.isSome then some ⟨none, clock⟩ else none, false, v.changes ++ [.deleted]⟩
  else if v.pending then pure v
  else pure { v with pending := true, changes := v.changes ++ [.deletionPending] }

theorem seen_view {old : Std.ExtTreeMap String Entry} {p p' : Progress} {file : String × String}
    (h : seen device old p file = .ok p') :
    (p.view file.1).seen device old[file.1]? file.2 = .ok (p'.view file.1) ∧
      ∀ k, k ≠ file.1 → p'.view k = p.view k := by
  rw [seen] at h
  rw [View.seen]
  dsimp only at h ⊢
  have hpending : (p.pending.erase file.1).contains file.1 = false := by simp
  have hcontains : (p.view file.1).pending = p.pending.contains file.1 := rfl
  by_cases hsame : old[file.1]?.bind Entry.hash = some file.2
  · rw [if_pos hsame] at h ⊢
    obtain rfl := Except.ok.inj h
    constructor
    · rw [hcontains]
      refine congrArg Except.ok ?_
      cases hc : p.pending.contains file.1 <;> simp [Progress.view]
    · intro k hk
      cases hc : p.pending.contains file.1 <;> simp [Progress.view, Std.ExtTreeSet.contains_erase, Ne.symm hk]
  · rw [if_neg hsame] at h ⊢
    obtain ⟨clock, hclock, h⟩ := bind_eq_ok.mp h
    rw [hclock]
    obtain rfl := Except.ok.inj h
    constructor
    · rw [hcontains]
      refine congrArg Except.ok ?_
      cases hc : p.pending.contains file.1 <;> simp [Progress.view]
    · intro k hk
      cases hc : p.pending.contains file.1 <;>
        simp [Progress.view, Std.ExtTreeSet.contains_erase, Std.ExtTreeMap.getElem?_insert,
          Ne.symm hk]

theorem gone_view {approve : Bool} {p p' : Progress} {prior : String × Entry} (h : gone device approve p prior = .ok p') :
    (p.view prior.1).gone device approve prior.2 = .ok (p'.view prior.1) ∧ ∀ k, k ≠ prior.1 → p'.view k = p.view k := by
  rw [gone] at h
  rw [View.gone]
  by_cases happrove : approve = true
  · rw [if_pos happrove] at h ⊢
    obtain ⟨clock, hclock, h⟩ := bind_eq_ok.mp h
    rw [hclock]
    obtain rfl := Except.ok.inj h
    constructor
    · refine congrArg Except.ok ?_
      by_cases hin : prior.1 ∈ p.entries
      · simp [Progress.view, hin]
      · simp [Progress.view, hin]
    · intro k hk
      by_cases hin : prior.1 ∈ p.entries
      · simp [Progress.view, hin, Std.ExtTreeSet.contains_erase, Std.ExtTreeMap.getElem?_insert, Ne.symm hk]
      · simp [Progress.view, hin, Std.ExtTreeSet.contains_erase, Ne.symm hk]
  · rw [if_neg happrove] at h ⊢
    have hcontains : (p.view prior.1).pending = p.pending.contains prior.1 := rfl
    rw [hcontains]
    by_cases hin : p.pending.contains prior.1 = true
    · rw [if_pos hin] at h ⊢
      obtain rfl := Except.ok.inj h
      exact ⟨rfl, fun k _ => rfl⟩
    · rw [if_neg hin] at h ⊢
      obtain rfl := Except.ok.inj h
      constructor
      · refine congrArg Except.ok ?_
        simp [Progress.view]
      · intro k hk
        simp [Progress.view, Std.ExtTreeSet.contains_insert, Ne.symm hk]

/-- A scan, for one path: what was kept of it, whether it is there, and what was known. -/
def View.next (device : String) (approve : Bool) (there : Option String) (v : View) : Result View :=
  match there, v.entry with
  | some hash, prior => v.seen device prior hash
  | none, some prior => if prior.hash.isSome then v.gone device approve prior else pure v
  | none, none => pure v

/-- What is known of a path before a scan. -/
def Index.view (path : String) (i : Index) : View := ⟨i.entries[path]?, i.pending.contains path, []⟩

/-- **A scan treats each path by itself.** -/
theorem next_of_compare {i : Index} {approve : Bool} {found : Found} {p : Progress} (h : i.compare approve found = .ok p)
    (path : String) : (i.view path).next i.device approve found[path]? = .ok (p.view path) := by
  obtain ⟨q, hq, hp⟩ := bind_eq_ok.mp h
  obtain ⟨hseen, hunseen⟩ := @foldlM_keyed _ _ _ _ _ _ Prod.fst Progress.view
    (fun file v v' => v.seen i.device i.entries[file.1]? file.2 = .ok v') (fun _ _ _ h => seen_view h) _ (nodup_keys found) _ _ hq
  have hdeleted : ((i.deleted found).map Prod.fst).Nodup := (nodup_keys i.entries).sublist (List.filter_sublist.map _)
  obtain ⟨hgone, hkept⟩ := @foldlM_keyed _ _ _ _ _ _ Prod.fst Progress.view
    (fun prior v v' => v.gone i.device approve prior.2 = .ok v') (fun _ _ _ h => gone_view h) _ hdeleted _ _ hp
  have hview : Progress.view path ⟨i.entries, i.pending, []⟩ = i.view path := rfl
  have hmem : ∀ e, (path, e) ∈ i.deleted found ↔ i.entries[path]? = some e ∧ e.hash.isSome = true ∧ found[path]? = none := by
    intro e
    rw [Index.deleted, List.mem_filter, Std.ExtTreeMap.mem_toList_iff_getElem?_eq_some,
      Std.ExtTreeMap.contains_eq_isSome_getElem?, Bool.and_eq_true, Bool.not_eq_true', Option.isSome_eq_false_iff,
      Option.isNone_iff_eq_none]
  have hnotin : (∀ e, (path, e) ∉ i.deleted found) → path ∉ (i.deleted found).map Prod.fst := by
    intro hnone hin
    obtain ⟨⟨k, e⟩, he, rfl⟩ := List.mem_map.mp hin
    exact hnone e he
  cases hfound : found[path]? with
  | some hash =>
    have hfile : (path, hash) ∈ found.toList := Std.ExtTreeMap.mem_toList_iff_getElem?_eq_some.mpr hfound
    have hsame : p.view path = q.view path := hkept path (hnotin fun e he => by simp [hfound] at hmem; exact hmem e he)
    rw [hsame, View.next, ← hview]
    exact hseen _ hfile
  | none =>
    have hq' : q.view path = i.view path := by
      rw [← hview]
      refine hunseen path fun hin => ?_
      obtain ⟨⟨k, hash⟩, hfile, rfl⟩ := List.mem_map.mp hin
      rw [Std.ExtTreeMap.mem_toList_iff_getElem?_eq_some.mp hfile] at hfound
      cases hfound
    cases hentry : i.entries[path]? with
    | none =>
      have hsame : p.view path = q.view path := hkept path (hnotin fun e he => by simp [hentry] at hmem; exact hmem e he)
      have hv : (i.view path).entry = none := hentry
      rw [hsame, hq']
      simp only [View.next, hv]
      rfl
    | some e =>
      have hv : (i.view path).entry = some e := hentry
      simp only [View.next, hv]
      by_cases hsome : e.hash.isSome = true
      · rw [if_pos hsome, ← hq']
        exact hgone _ ((hmem e).mpr ⟨hentry, hsome, hfound⟩)
      · have hsame : p.view path = q.view path := by
          refine hkept path (hnotin fun e' he => ?_)
          obtain ⟨he', hsome', -⟩ := (hmem e').mp he
          obtain rfl := Option.some.inj (hentry.symm.trans he')
          exact hsome hsome'
        rw [if_neg hsome, hsame, hq']
        rfl

/-! ### The history of a path -/

/-- The clock with one counter. -/
def counter (device : String) (n : ℕ) : Clock := ⟨(∅ : Std.ExtTreeMap String ℕ).insert device n⟩

theorem advance_counter {n : ℕ} {c : Clock} (h : (counter device n).advance device = .ok c) : c = counter device (n + 1) := by
  rw [Clock.advance, ensure_bind_eq_ok, ensure_bind_eq_ok, pure_eq_ok] at h
  obtain ⟨-, -, rfl⟩ := h
  have hget : (counter device n).get device = n := by simp [counter, Clock.get]
  rw [hget, counter, counter, Clock.mk.injEq]
  refine Std.ExtTreeMap.ext_getElem? fun k => ?_
  by_cases hk : device = k <;> simp [hk]

theorem advance_default {c : Clock} (h : Clock.default.advance device = .ok c) : c = counter device 1 := by
  rw [Clock.advance, ensure_bind_eq_ok, ensure_bind_eq_ok, pure_eq_ok] at h
  obtain ⟨-, -, rfl⟩ := h
  rw [Clock.get_default]
  rfl

/-- What is kept of a path follows from the scans so far. -/
structure Tracks (device path : String) (looks : List Look) (entry : Option Entry) (pending : Bool) : Prop where
  /-- The hash is that of the content it counts as having. -/
  hash : entry.bind Entry.hash = held path looks
  /-- It is pending when it is missing and not approved. -/
  pending : pending = missing path looks
  /-- A path that is not kept was never there. -/
  absent : entry = none → edits path looks = 0
  /-- The clock counts the edits. -/
  clock : ∀ e, entry = some e → 0 < edits path looks ∧ e.clock = counter device (edits path looks)

/-- The next clock of a path. -/
theorem Tracks.advance {entry : Option Entry} {pending : Bool} {c : Clock} (ht : Tracks device path looks entry pending)
    (h : (entry.elim Clock.default Entry.clock).advance device = .ok c) : c = counter device (edits path looks + 1) := by
  cases entry with
  | none =>
    rw [ht.absent rfl]
    exact advance_default h
  | some e =>
    have hclock : e.clock = counter device (edits path looks) := (ht.clock e rfl).2
    rw [Option.elim_some, hclock] at h
    exact advance_counter h

/-- **A scan keeps track of a path**, and returns what has changed for it. -/
theorem Tracks.next {v v' : View} (ht : Tracks device path older v.entry v.pending) (hchanges : v.changes = [])
    (h : v.next device l.approve l.found[path]? = .ok v') :
    Tracks device path (l :: older) v'.entry v'.pending ∧ v'.changes = differences path l older := by
  obtain ⟨entry, pending, changes⟩ := v
  obtain rfl : changes = [] := hchanges
  have hhash : entry.bind Entry.hash = held path older := ht.hash
  obtain rfl : pending = missing path older := ht.pending
  cases hfound : l.found[path]? with
  | some hash =>
    have hheld : held path (l :: older) = some hash := by rw [held, hfound]
    have hmissing : missing path (l :: older) = false := by simp [missing, hfound]
    have hedits : edits path (l :: older) = (if some hash = held path older then 0 else 1) + edits path older := by
      rw [edits, hheld]
    simp only [hfound, View.next, View.seen] at h
    by_cases hsame : entry.bind Entry.hash = some hash
    · rw [if_pos hsame] at h
      obtain rfl := Except.ok.inj h
      have hold : held path older = some hash := hhash.symm.trans hsame
      rw [hold, if_pos rfl, Nat.zero_add] at hedits
      refine ⟨⟨hsame.trans hheld.symm, hmissing.symm, ?_, ?_⟩, ?_⟩
      · rw [hedits]
        exact ht.absent
      · rw [hedits]
        exact ht.clock
      · simp [differences, hold, hheld, hfound, hmissing]
    · rw [if_neg hsame] at h
      obtain ⟨clock, hclock, h⟩ := bind_eq_ok.mp h
      obtain rfl := Except.ok.inj h
      have hold : held path older ≠ some hash := fun h => hsame (hhash.trans h)
      rw [if_neg (Ne.symm hold), Nat.add_comm] at hedits
      refine ⟨⟨hheld.symm, hmissing.symm, fun h => (by cases h), ?_⟩, ?_⟩
      · intro e he
        obtain rfl := Option.some.inj he
        rw [hedits]
        exact ⟨Nat.succ_pos _, ht.advance hclock⟩
      · rw [hhash]
        cases hprior : held path older with
        | none => simp [differences, hprior, hheld, hfound, hmissing]
        | some hash' =>
          have hne : hash' ≠ hash := fun h => hold (h ▸ hprior)
          simp [differences, hprior, hheld, hfound, hmissing, hne]
  | none =>
    have hheld : held path (l :: older) = if l.approve then none else held path older := by rw [held, hfound]
    have hmissing : missing path (l :: older) = (!l.approve && (held path older).isSome) := by simp [missing, hfound]
    simp only [hfound, View.next] at h
    have hkept : entry.bind Entry.hash = none → v' = ⟨entry, missing path older, []⟩ →
        Tracks device path (l :: older) v'.entry v'.pending ∧ v'.changes = differences path l older := by
      rintro hnone rfl
      have hold : held path older = none := hhash.symm.trans hnone
      have hheld' : held path (l :: older) = none := by rw [hheld, hold, ite_self]
      have hedits : edits path (l :: older) = edits path older := by rw [edits, hheld', hold, if_pos rfl, Nat.zero_add]
      have hbefore := missing_eq_false hold
      have hafter := missing_eq_false hheld'
      refine ⟨⟨hnone.trans hheld'.symm, hbefore.trans hafter.symm, ?_, ?_⟩, ?_⟩
      · rw [hedits]
        exact ht.absent
      · rw [hedits]
        exact ht.clock
      · simp [differences, hold, hheld', hfound, hafter]
    cases entry with
    | none => exact hkept rfl (Except.ok.inj h).symm
    | some e =>
      dsimp only at h
      by_cases hsome : e.hash.isSome = true
      · rw [if_pos hsome] at h
        obtain ⟨hash, hold⟩ := Option.isSome_iff_exists.mp hsome
        have hprior : held path older = some hash := hhash.symm.trans hold
        rw [View.gone] at h
        by_cases happrove : l.approve = true
        · rw [if_pos happrove] at h
          obtain ⟨clock, hclock, h⟩ := bind_eq_ok.mp h
          obtain rfl := Except.ok.inj h
          have hheld' : held path (l :: older) = none := by rw [hheld, if_pos happrove]
          have hafter := missing_eq_false hheld'
          have hedits : edits path (l :: older) = edits path older + 1 := by
            rw [edits, hheld', hprior, if_neg (by simp), Nat.add_comm]
          refine ⟨⟨hheld'.symm, hafter.symm, fun h => (by cases h), ?_⟩, ?_⟩
          · intro e' he'
            obtain rfl := Option.some.inj he'
            rw [hedits]
            exact ⟨Nat.succ_pos _, ht.advance hclock⟩
          · simp [differences, hprior, hheld', hfound, hafter]
        · rw [if_neg happrove] at h
          have hheld' : held path (l :: older) = some hash := by rw [hheld, if_neg happrove, hprior]
          have hafter : missing path (l :: older) = true := by simp [hmissing, happrove, hprior]
          have hedits : edits path (l :: older) = edits path older := by rw [edits, hheld', hprior, if_pos rfl, Nat.zero_add]
          have hdone : Tracks device path (l :: older) (some e) true := by
            refine ⟨hold.trans hheld'.symm, hafter.symm, fun h => (by cases h), ?_⟩
            rw [hedits]
            exact ht.clock
          by_cases hbefore : missing path older = true
          · rw [if_pos hbefore] at h
            obtain rfl := Except.ok.inj h
            refine ⟨hbefore ▸ hdone, ?_⟩
            simp [differences, hprior, hheld', hfound, hbefore]
          · rw [if_neg hbefore] at h
            obtain rfl := Except.ok.inj h
            refine ⟨hdone, ?_⟩
            simp [differences, hprior, hheld', hfound, hbefore, hafter]
      · rw [if_neg hsome] at h
        exact hkept (by simpa using hsome) (Except.ok.inj h).symm

/-! ### All paths -/

/-- The index follows from the scans so far. -/
def TracksAll (h : History) : Prop :=
  ∀ path, Tracks h.index.device path h.looks h.index.entries[path]? (h.index.pending.contains path)

theorem tracksAll_empty (device : String) : TracksAll ⟨.empty device, []⟩ := by
  intro path
  have hentry : (Index.empty device).entries[path]? = none := Std.ExtTreeMap.getElem?_empty
  have hpending : (Index.empty device).pending.contains path = false := Std.ExtTreeSet.contains_empty
  refine ⟨?_, hpending, fun _ => rfl, ?_⟩
  · rw [hentry]
    rfl
  · intro e he
    rw [hentry] at he
    cases he

/-- What a scan that comes to its end does. -/
theorem scan_eq_ok {i i' : Index} {a : Attempt} {events : List Event} (h : i.scan P a = (.ok events, i')) :
    ∃ found p, a.found P = .ok found ∧ i.compare a.approve found = .ok p ∧ events = p.events ∧
      i' = { i with entries := p.entries, pending := p.pending } := by
  rw [Index.scan] at h
  cases hp : a.found P >>= i.compare a.approve with
  | error e =>
    rw [hp] at h
    cases h
  | ok p =>
    rw [hp] at h
    obtain ⟨found, hfound, hcompare⟩ := bind_eq_ok.mp hp
    obtain ⟨hevents, rfl⟩ := Prod.mk.inj h
    exact ⟨found, p, hfound, hcompare, (Except.ok.inj hevents).symm, rfl⟩

theorem scan_eq_error {i i' : Index} {a : Attempt} {e : Error} (h : i.scan P a = (.error e, i')) : i' = i := by
  rw [Index.scan] at h
  cases hp : a.found P >>= i.compare a.approve with
  | error e' =>
    rw [hp] at h
    exact (Prod.mk.inj h).2.symm
  | ok p =>
    rw [hp] at h
    cases h

/-- **A scan keeps track of all paths.** -/
theorem TracksAll.scan {h : History} {a : Attempt} {events : List Event} {i' : Index} (ht : TracksAll h)
    (hscan : h.index.scan P a = (.ok events, i')) : ∃ found, a.found P = .ok found ∧
      h.record P a = ⟨i', ⟨a.approve, found⟩ :: h.looks⟩ ∧ TracksAll ⟨i', ⟨a.approve, found⟩ :: h.looks⟩ ∧
      ∀ path, (events.filter (·.path = path)).map (·.change) = differences path ⟨a.approve, found⟩ h.looks := by
  obtain ⟨found, p, hfound, hcompare, rfl, rfl⟩ := scan_eq_ok hscan
  have hnext := fun path => (ht path).next (l := ⟨a.approve, found⟩) (v := h.index.view path) rfl (next_of_compare hcompare path)
  refine ⟨found, hfound, ?_, fun path => (hnext path).1, fun path => (hnext path).2⟩
  rw [History.record, hfound, hscan]

theorem TracksAll.record {h : History} (ht : TracksAll h) (a : Attempt) : TracksAll (h.record P a) := by
  cases hscan : h.index.scan P a with
  | mk result i' =>
    cases result with
    | ok events =>
      obtain ⟨found, -, hrecord, ht', -⟩ := ht.scan hscan
      rw [hrecord]
      exact ht'
    | error e =>
      obtain rfl := scan_eq_error hscan
      have hsame : h.record P a = h := by
        rw [History.record, hscan]
        cases a.found P <;> rfl
      rw [hsame]
      exact ht

theorem device_record (h : History) (a : Attempt) : (h.record P a).index.device = h.index.device := by
  cases hscan : h.index.scan P a with
  | mk result i' =>
    have hdevice : i'.device = h.index.device := by
      cases result with
      | ok events =>
        obtain ⟨found, p, -, -, -, rfl⟩ := scan_eq_ok hscan
        rfl
      | error e => rw [scan_eq_error hscan]
    rw [History.record, hscan, ← hdevice]
    cases a.found P <;> cases result <;> rfl

/-- What holds after all scans. -/
theorem tracksAll_run (P : Platform) (device : String) (attempts : List Attempt) :
    TracksAll (run P device attempts) ∧ (run P device attempts).index.device = device := by
  induction attempts using List.reverseRecOn with
  | nil => exact ⟨tracksAll_empty device, rfl⟩
  | append_singleton attempts a ih =>
    rw [run, List.foldl_append, List.foldl_cons, List.foldl_nil]
    exact ⟨ih.1.record a, (device_record _ a).trans ih.2⟩

/-- **A scan of what was found before does nothing**, unless it approves what is pending. -/
theorem TracksAll.again {i : Index} {l : Look} {older : List Look} {approve : Bool} (ht : TracksAll ⟨i, l :: older⟩)
    (happrove : approve = true → l.approve = true ∨ i.pending = ∅) :
    i.compare approve l.found = .ok ⟨i.entries, i.pending, []⟩ := by
  have hseen : l.found.toList.foldlM (seen i.device i.entries) ⟨i.entries, i.pending, []⟩ =
      .ok ⟨i.entries, i.pending, []⟩ := by
    refine foldlM_same _ ?_
    rintro ⟨path, hash⟩ hfile
    have hfound : l.found[path]? = some hash := Std.ExtTreeMap.mem_toList_iff_getElem?_eq_some.mp hfile
    have hhash : i.entries[path]?.bind Entry.hash = some hash := by
      rw [(ht path).hash, held, hfound]
    have hpending : i.pending.contains path = false := by
      rw [(ht path).pending, missing, hfound]
      rfl
    have herase : i.pending.erase path = i.pending := by
      refine Std.ExtTreeSet.ext_mem fun k => ?_
      rw [Std.ExtTreeSet.mem_erase]
      refine ⟨And.right, fun hk => ⟨fun heq => ?_, hk⟩⟩
      obtain rfl := Std.LawfulEqCmp.eq_of_compare heq
      rw [Std.ExtTreeSet.contains_iff_mem.mpr hk] at hpending
      cases hpending
    rw [seen]
    dsimp only
    rw [if_pos hhash, hpending, herase]
    rfl
  rw [Index.compare, hseen]
  refine foldlM_same _ ?_
  rintro ⟨path, e⟩ hmem
  rw [Index.deleted, List.mem_filter, Std.ExtTreeMap.mem_toList_iff_getElem?_eq_some,
    Std.ExtTreeMap.contains_eq_isSome_getElem?, Bool.and_eq_true, Bool.not_eq_true', Option.isSome_eq_false_iff,
    Option.isNone_iff_eq_none] at hmem
  obtain ⟨hentry, hsome, hfound⟩ := hmem
  have hheld : (held path (l :: older)).isSome = true := by
    rw [← (ht path).hash]
    change (i.entries[path]?.bind Entry.hash).isSome = true
    rw [hentry]
    exact hsome
  rw [held, hfound] at hheld
  have hkept : l.approve = false := by
    by_contra h
    rw [if_pos (Bool.eq_true_of_not_eq_false h)] at hheld
    cases hheld
  rw [hkept] at hheld
  have hpending : i.pending.contains path = true := by
    rw [(ht path).pending, missing, hfound, hkept]
    exact hheld
  have hnot : ¬ approve = true := by
    intro h
    rcases happrove h with h | h
    · rw [hkept] at h
      cases h
    · rw [h] at hpending
      simp at hpending
  rw [gone, if_neg hnot, if_pos hpending]
  rfl

/-- **The index is the history of the folder.** After any scans of any folders, with or without approval, some of which may
have failed: a path has a hash when it is there, or missing and not approved, and the latter paths are pending; the clock of a
path has one counter, the number of its creations, content changes and approved deletions, and a path that is not kept has
none. The events of a scan are the differences to the scan before, and a scan of the same folder returns none and changes
nothing, unless it approves deletions that are pending. -/
theorem scan_tracks (P : Platform) (device : String) (attempts : List Attempt) :
    let h := run P device attempts
    (∀ path hash, h.index.entries[path]?.bind Entry.hash = some hash ↔
      Present path hash h.looks ∨ Unapproved path hash h.looks) ∧
    (∀ path, path ∈ h.index.pending ↔ ∃ hash, Unapproved path hash h.looks) ∧
    (∀ path, h.index.entries[path]? = none → edits path h.looks = 0) ∧
    (∀ path e, h.index.entries[path]? = some e → 0 < edits path h.looks ∧
      e.clock.counters = (∅ : Std.ExtTreeMap String ℕ).insert device (edits path h.looks)) ∧
    (∀ (a : Attempt) (e : Error) (i' : Index), h.index.scan P a = (.error e, i') → i' = h.index) ∧
    ∀ (a : Attempt) (events : List Event) (i' : Index), h.index.scan P a = (.ok events, i') →
      ∃ found, a.found P = .ok found ∧ h.record P a = ⟨i', ⟨a.approve, found⟩ :: h.looks⟩ ∧
        (∀ path, (events.filter (·.path = path)).map (·.change) = differences path ⟨a.approve, found⟩ h.looks) ∧
        ∀ approve : Bool, (approve = true → a.approve = true ∨ i'.pending = ∅) →
          i'.scan P { a with approve := approve } = (.ok [], i') := by
  intro h
  obtain ⟨ht, hdevice⟩ := tracksAll_run P device attempts
  refine ⟨?_, ?_, ?_, ?_, fun a e i' => scan_eq_error, ?_⟩
  · intro path hash
    rw [(ht path).hash, held_eq_some]
  · intro path
    rw [← missing_iff, ← (ht path).pending, Std.ExtTreeSet.contains_iff_mem]
  · intro path
    exact (ht path).absent
  · intro path e he
    obtain ⟨hpos, hclock⟩ := (ht path).clock e he
    rw [hclock, hdevice]
    exact ⟨hpos, rfl⟩
  · intro a events i' hscan
    obtain ⟨found, hfound, hrecord, ht', hevents⟩ := ht.scan hscan
    refine ⟨found, hfound, hrecord, hevents, ?_⟩
    intro approve happrove
    have hagain : ({ a with approve := approve } : Attempt).found P = .ok found := hfound
    rw [Index.scan, hagain]
    change (match i'.compare approve found with | .ok p => _ | .error e => _) = _
    rw [ht'.again happrove]

/-- A scan of a folder whose root is there. -/
def Attempt.of (approve : Bool) (tree : Tree) : Attempt := ⟨approve, .ok (), tree, .ok ()⟩

/-- A folder with one file. -/
def oneFile : Tree := .leaf (some "one") (.file [7]) .nil

/-- The scan of an unchanged folder that approves what is pending returns an event. -/
theorem scan_again_approved : ¬ ∀ (P : Platform) (device : String) (attempts : List Attempt) (tree : Tree)
    (approve approve' : Bool) (events events' : List Event) (i i' : Index),
    (run P device attempts).index.scan P (.of approve tree) = (.ok events, i) →
    i.scan P (.of approve' tree) = (.ok events', i') → events' = [] ∧ i' = i := by
  intro h
  let first := (run .sample "a" [.of false oneFile]).index.scan .sample (.of false .nil)
  let second := first.2.scan .sample (.of true .nil)
  have hfirst : first.1 = .ok [⟨"one", .deletionPending⟩] := by decide +kernel
  have hsecond : second.1 = .ok [⟨"one", .deleted⟩] := by decide +kernel
  have hevents := (h .sample "a" [.of false oneFile] .nil false true _ _ first.2 second.2 (Prod.ext hfirst rfl)
    (Prod.ext hsecond rfl)).1
  cases hevents

/-- A file that was removed is pending, and the next scan finds nothing new. -/
theorem scan_tracks_removed :
    let i := ((run .sample "a" [.of false oneFile]).index.scan .sample (.of false .nil)).2
    i.scan .sample (.of false .nil) = (.ok [], i) := by
  intro i
  have hscan : ((run .sample "a" [.of false oneFile]).index.scan .sample (.of false .nil)).1 =
      .ok [⟨"one", .deletionPending⟩] := by decide +kernel
  obtain ⟨-, -, -, -, -, hnext⟩ := scan_tracks .sample "a" [.of false oneFile]
  obtain ⟨found, -, -, -, hagain⟩ := hnext _ _ i (Prod.ext hscan rfl)
  exact hagain false (by simp)

end Everywhere.Scan
