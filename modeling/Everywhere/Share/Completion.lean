import Everywhere.Library.Rounds
import Everywhere.Share.Backup
import Everywhere.Share.Paging

/-!
# Completion

At the end of a session a share merges what it has taken in and brings the folder to the result, page by page, until
nothing is left.

* `loops_end` — **the loops end by themselves**: the pages that are applied or fetched lower the number of paths or
  objects that are left, whatever others do, so that the loops, unrolled often enough, never come to their bottom.
* `commit_complete` — **a merge that succeeds is complete**: everything that was taken in is in the version sets, no
  peer is awaited any more, and every path that does not await a decision has been brought to its version set.
-/

namespace Everywhere

open Library

namespace Index

variable {P : Platform} {i i' : Index} {path : String} {l : Row} {v : Versions} {c : Content}

theorem mem_candidates_iff : path ∈ i.candidates ↔
    ∃ l, i.entries[path]? = some l ∧ l.versions ≠ l.observed ∧ path ∉ i.pending := by
  rw [candidates, List.mem_map]
  constructor
  · rintro ⟨e, he, rfl⟩
    obtain ⟨hmem, hc⟩ := List.mem_filter.mp ((List.mem_insertionSort _).mp he)
    exact ⟨e.2, Std.ExtTreeMap.mem_toList_iff_getElem?_eq_some.mp hmem, by simpa using hc⟩
  · rintro ⟨l, hl, hne, hp⟩
    refine ⟨(path, l), (List.mem_insertionSort _).mpr (List.mem_filter.mpr ⟨?_, ?_⟩), rfl⟩
    · exact Std.ExtTreeMap.mem_toList_iff_getElem?_eq_some.mpr hl
    · simpa using ⟨hne, hp⟩

theorem nodup_candidates : i.candidates.Nodup := by
  refine ((List.perm_insertionSort _ _).map _).nodup_iff.mpr ?_
  refine List.Nodup.sublist (List.filter_sublist.map _) ?_
  rw [Std.ExtTreeMap.map_fst_toList_eq_keys]
  exact Std.ExtTreeMap.nodup_keys

/-- A path that was applied is no candidate any more; the others are as before. -/
theorem candidates_applied (h : i.applied P path v c = .ok i') {q : String} :
    q ∈ i'.candidates ↔ q ∈ i.candidates ∧ q ≠ path := by
  have hpending : i'.pending = i.pending := by rw [(save_eq_ok.mp h).2.2.2]
  rw [mem_candidates_iff, mem_candidates_iff, hpending]
  by_cases hq : q = path
  · simp only [save_entries h, hq, if_pos, ne_eq, not_true_eq_false, and_false, iff_false]
    rintro ⟨l, hl, hne, -⟩
    obtain rfl := Option.some.inj hl
    exact hne rfl
  · simp [save_entries h, hq]

/-- The version sets know what was taken in. -/
def Knows (inc : Std.ExtTreeMap String Versions) (i : Index) : Prop :=
  ∀ (path : String) (v : Versions), inc[path]? = some v → ∃ l, i.entries[path]? = some l ∧ v.known ≤ l.versions.known

theorem Knows.grows {inc : Std.ExtTreeMap String Versions} (h : i.Knows inc) (hg : Grows i i') : i'.Knows inc := by
  intro path v hv
  obtain ⟨l, hl, hle⟩ := h path v hv
  obtain ⟨l', hl', hle'⟩ := hg.known path l hl
  exact ⟨l', hl', hle.trans hle'⟩

theorem known_joinRow (hid : Function.Injective (Revision.id P)) (h : i.joinRow P path v = .ok i') :
    ∃ l, i'.entries[path]? = some l ∧ v.known ≤ l.versions.known := by
  rw [joinRow] at h
  cases hp : i.entries[path]? with
  | none =>
    simp only [hp] at h
    obtain ⟨w, hw, h⟩ := bind_eq_ok.mp h
    obtain rfl := pure_eq_ok.mp hw
    exact ⟨_, by rw [save_entries h, if_pos rfl], le_rfl⟩
  | some l =>
    simp only [hp] at h
    obtain ⟨w, hw, h⟩ := bind_eq_ok.mp h
    refine ⟨_, by rw [save_entries h, if_pos rfl], ?_⟩
    dsimp only
    rw [known_merge hid hw]
    exact le_sup_right

/-- Merging makes the version sets know everything that was taken in. -/
theorem knows_joinIncoming (hid : Function.Injective (Revision.id P)) (hi : i.Wf P) (h : i.joinIncoming P = .ok i') :
    i'.Knows i.incoming := by
  obtain ⟨j, hj, h⟩ := bind_eq_ok.mp h
  obtain rfl := pure_eq_ok.mp h
  have hall : ∀ (rest : List (String × Versions)) (k : Index), k.Wf P → (∀ e ∈ rest, k.incoming[e.1]? = some e.2) →
      rest.foldlM (fun i e => joinRow P i e.1 e.2) k = .ok j →
      ∀ e ∈ rest, ∃ l, j.entries[e.1]? = some l ∧ e.2.known ≤ l.versions.known := by
    intro rest
    induction rest with
    | nil => simp
    | cons e rest ih =>
      intro k hk hin h
      rw [List.foldlM_cons] at h
      obtain ⟨k', hk', h⟩ := bind_eq_ok.mp h
      have hchain : Chain P "" true true k k' := (joinRow_saves (hin e (by simp)) hk').chain
      have hin' : ∀ e ∈ rest, k'.incoming[e.1]? = some e.2 := fun e he => by
        rw [joinRow_incoming hk']
        exact hin e (by simp [he])
      have hwf := Chain.wf hid hk hchain
      rintro e' (_ | ⟨_, he⟩)
      · obtain ⟨l, hl, hle⟩ := known_joinRow hid hk'
        have hrest : Chain P "" true true k' j := (foldlM_joinRow hin' h).1
        obtain ⟨l', hl', hle'⟩ := (hrest.grows hid hwf).known _ l hl
        exact ⟨l', hl', hle.trans hle'⟩
      · exact ih k' hwf hin' h e' he
  intro path v hv
  exact hall _ i hi (fun e he => Std.ExtTreeMap.mem_toList_iff_getElem?_eq_some.mp he) hj (path, v)
    (Std.ExtTreeMap.mem_toList_iff_getElem?_eq_some.mpr hv)

end Index

namespace Share

variable {β : Type} {P : Platform} {W : Wire β} {replica : String} {i : Index} {α γ : Type}

/-! ### Pages -/

theorem stable_index {A : Index → Prop} : Stable (terms (β := β) P replica true true) fun s => A s.index := by
  intro s s' h hs
  rwa [h.index]

theorem stable_known {A : Index → Prop} :
    Stable (terms (β := β) P replica true true) fun s => Held replica s ∧ A s.index :=
  Stable.and stable_held stable_index

/-- A program may begin with any index of some kind. -/
theorem triple_known_iff {A : Index → Prop} {p : Io (Share β) α} {Q : Result α → Share β → Prop} :
    Triple (terms P replica true true) (fun s => Held replica s ∧ A s.index) p Q ↔
      ∀ i, A i → Triple (terms P replica true true) (Own replica i) p Q :=
  ⟨fun h _ hi s hs => h s ⟨hs.1, hs.2 ▸ hi⟩, fun h s hs => h s.index hs.2 s ⟨hs.1, rfl⟩⟩

/-- A first part that leaves the index alone. -/
theorem own_seq {V : α → Prop} {p : Io (Share β) α} {f : α → Io (Share β) γ} {Q : γ → Share β → Prop}
    (h : Tries Quiet V p)
    (hf : ∀ a, V a → Triple (terms P replica true true) (Own replica i) (f a) (outcome Q fun _ => Held replica)) :
    Triple (terms P replica true true) (Own replica i) (p >>= f : Io (Share β) γ) (outcome Q fun _ => Held replica) :=
  Triple.seq ((own_quiet h).conseq (fun _ h => h) fun r s hr => by
    cases r with
    | error e => exact hr.1
    | ok a => exact hr) hf

/-- A first part that reads the index. -/
theorem own_seq_look {V : α → Prop} {g : Share β → α} {f : α → Io (Share β) γ} {Q : γ → Share β → Prop}
    (h : ∀ s, Own replica i s → V (g s))
    (hf : ∀ a, V a → Triple (terms P replica true true) (Own replica i) (f a) (outcome Q fun _ => Held replica)) :
    Triple (terms P replica true true) (Own replica i) (Fallible.look g >>= f : Io (Share β) γ)
      (outcome Q fun _ => Held replica) :=
  Triple.seq ((own_look h).conseq (fun _ h => h) fun r s hr => by
    cases r with
    | error e => exact hr.1
    | ok a => exact hr) hf

/-- What a transaction writes. -/
theorem own_transaction {f : Index → Result Index} (h : ∀ i', f i = .ok i' → Index.Chain P replica true true i i') :
    Triple (terms P replica true true) (Own replica i) (transaction f : Io (Share β) Unit)
      (outcome (fun _ s => Held replica s ∧ f i = .ok s.index) fun _ => Held replica) := by
  refine Triple.act stable_own (fun _ h => h.1) (fun r => ?_) (fun r s hr => ?_) fun s hs => ?_
  · cases r with
    | error e => exact stable_held
    | ok a => exact stable_known (A := fun j => f i = .ok j)
  · cases r with
    | error e => exact hr
    | ok a => exact hr.1
  · obtain ⟨hheld, rfl⟩ := hs
    cases hf : f s.index with
    | error e => exact ⟨⟨.refl, rfl, rfl⟩, hheld⟩
    | ok i' => exact ⟨⟨h i' hf, rfl, rfl⟩, hheld, rfl⟩

theorem own_applyLocal {path : String} {l : Row} (hl : i.entries[path]? = some l) :
    Triple (terms P replica true true) (Own replica i) (applyLocal P path l : Io (Share β) Unit)
      (outcome (fun _ s => Held replica s ∧ ∃ c, i.applied P path l.versions c = .ok s.index)
        fun _ => Held replica) := by
  have hrest : ∀ (r : Revision) (object : Option String), l.versions.selected P = some r →
      Triple (terms P replica true true) (Own replica i) (do
        checkRoot
        let id ← randomId
        Root.apply P id path l.materialized r.content (object.map readObject)
        transaction fun i => i.applied P path l.versions r.content : Io (Share β) Unit)
        (outcome (fun _ s => Held replica s ∧ ∃ c, i.applied P path l.versions c = .ok s.index)
          fun _ => Held replica) := by
    intro r object hr
    refine own_seq quiet_checkRoot fun _ _ =>
      own_seq (V := fun _ => True) (Tries.act fun _ => ⟨rfl, rfl, rfl, id⟩) fun id _ =>
        own_seq (quiet_apply _ _ _ _ _) fun _ _ => ?_
    refine (own_transaction fun i' h => (Index.Saves.applied hl hr h).chain).conseq (fun _ h => h) fun a s ha => ?_
    cases a with
    | error e => exact ha
    | ok a => exact ⟨ha.1, _, ha.2⟩
  unfold applyLocal
  split
  next r hr =>
    refine own_seq (V := fun selected => selected = r.content) (Tries.ofExcept fun a ha => (Except.ok.inj ha).symm)
      fun selected hsel => ?_
    subst hsel
    beta_reduce
    split
    · exact own_seq (quiet_lift _) fun object _ => own_seq (quiet_pure _) fun _ _ => hrest r _ hr
    · exact own_seq (quiet_pure _) fun _ _ => hrest r _ hr
  next => exact own_seq (V := fun _ => False) (Tries.ofExcept fun a ha => by cases ha) fun _ h => h.elim

/-- What each item of a page does adds up. -/
theorem triple_page {body : String → Io (Share β) Unit} {D : List String → Index → Prop}
    (hbody : ∀ path done, Triple (terms P replica true true) (fun s => Held replica s ∧ D done s.index) (body path)
      (outcome (fun _ s => Held replica s ∧ D (path :: done) s.index) fun _ => Held replica)) (paths done : List String) :
    Triple (terms P replica true true) (fun s => Held replica s ∧ D done s.index) (paths.forM body : Io (Share β) Unit)
      (outcome (fun _ s => Held replica s ∧ D (paths.reverse ++ done) s.index) fun _ => Held replica) := by
  induction paths generalizing done with
  | nil => exact Triple.ofExcept stable_known (fun _ h => h.1) fun _ h => h
  | cons path paths ih =>
    rw [List.reverse_cons, List.append_assoc]
    exact Triple.andThen (hbody path done) fun _ => ih (path :: done)

/-- The candidates without some paths. -/
def Left (c done : List String) (i : Index) : Prop := ∀ q, q ∈ i.candidates ↔ q ∈ c ∧ q ∉ done

/-- What was applied is left no more. -/
theorem left_applyPage (peer : String) (c paths : List String) :
    Triple (terms P replica true true) (fun s => Held replica s ∧ Left c [] s.index)
      (applyPage P peer paths : Io (Share β) Unit)
      (outcome (fun _ s => Held replica s ∧ Left c (paths.reverse ++ []) s.index) fun _ => Held replica) := by
  refine triple_page (fun path done => triple_known_iff.mpr fun i hi => ?_) paths []
  refine own_seq_look (V := fun found => i.entries[path]? = found) (fun s hs => by rw [← hs.2]) fun found hfound => ?_
  split
  · refine own_seq (quiet_authorize _ _) fun _ _ => (own_applyLocal hfound).conseq (fun _ h => h) fun r s hr => ?_
    cases r with
    | error e => exact hr
    | ok a =>
      obtain ⟨hheld, content, happlied⟩ := hr
      refine ⟨hheld, fun q => ?_⟩
      rw [Index.candidates_applied happlied, hi q, List.mem_cons]
      tauto
  · refine Triple.ofExcept stable_own (fun _ h => h.1) fun s hs => ⟨hs.1, fun q => ?_⟩
    rw [hs.2, hi q, List.mem_cons]
    refine ⟨fun h => ⟨h.1, ?_⟩, fun h => ⟨h.1, fun hq => h.2 (.inr hq)⟩⟩
    rintro (rfl | hq)
    · obtain ⟨l, hl, -⟩ := Index.mem_candidates_iff.mp ((hi q).mpr h)
      rw [hfound] at hl
      cases hl
    · exact h.2 hq

/-- A list without duplicates is shorter than one that has all of it and more. -/
theorem length_lt_of_subset {l l' : List String} (hl : l.Nodup) (h : ∀ q ∈ l, q ∈ l') {q : String}
    (hq : q ∈ l') (hne : q ∉ l) :
    l.length < l'.length :=
  (List.subperm_of_subset (List.nodup_cons.mpr ⟨hne, hl⟩) (List.cons_subset.mpr ⟨hq, h⟩)).length_le

theorem own_objectReceived (hash : String) :
    Triple (terms P replica true true) (Own replica i) (objectReceived P hash : Io (Share β) Unit)
      (outcome (fun _ s => Held replica s ∧ s.index.needed = i.needed.erase hash) fun _ => Held replica) := by
  refine own_seq (quiet_lift _) fun _ _ => own_seq (quiet_objectManifest _) fun _ _ =>
    own_seq (quiet_lift _) fun _ _ => ?_
  refine (own_transaction fun i' h => ?_).conseq (fun _ h => h) fun r s hr => ?_
  · obtain rfl := Except.ok.inj h
    exact (show Index.Aside P i { i with needed := i.needed.erase hash } from
      ⟨⟨rfl, rfl, rfl, rfl, fun _ _ h => .inl h, fun _ h => .inl h⟩, rfl, rfl⟩).chain
  · cases r with
    | error e => exact hr
    | ok a => exact ⟨hr.1, by rw [← Except.ok.inj hr.2]⟩

/-- The objects to be fetched are among some others, without those that were fetched. -/
def Wanted (n : Std.ExtTreeSet String) (done : List String) (i : Index) : Prop := ∀ q ∈ i.needed, q ∈ n ∧ q ∉ done

/-- What was fetched is wanted no more. -/
theorem wanted_pullPage (peer : String) (n : Std.ExtTreeSet String) (missing : List String) :
    Triple (terms P replica true true) (fun s => Held replica s ∧ Wanted n [] s.index) (pullPage P W peer missing)
      (outcome (fun _ s => Held replica s ∧ Wanted n (missing.reverse ++ []) s.index) fun _ => Held replica) := by
  refine triple_page (fun hash done => triple_known_iff.mpr fun i hi => ?_) missing []
  refine own_seq (quiet_talk (talk_basisObject _)) fun _ _ => own_seq (quiet_receiveObject _ _ _) fun _ _ => ?_
  refine (own_objectReceived hash).conseq (fun _ h => h) fun r s hr => ?_
  cases r with
  | error e => exact hr
  | ok a =>
    refine ⟨hr.1, fun q hq => ?_⟩
    rw [hr.2, Std.ExtTreeSet.mem_erase] at hq
    obtain ⟨hn, hdone⟩ := hi q hq.2
    refine ⟨hn, fun hmem => (List.mem_cons.mp hmem).elim (fun heq => hq.1 ?_) hdone⟩
    rw [heq]
    exact Std.ReflCmp.compare_self

/-! ### The loops -/

/-- What a look has found still holds. -/
theorem look_of_reaches {g : Share β → α} {s t : Share β} {a : α}
    (h : Prog.Reaches Outside (Fallible.look g : Io (Share β) α) s (.ret (.ok a)) t) :
    ∃ u, Relation.ReflTransGen Outside s u ∧ a = g u ∧ Relation.ReflTransGen Outside u t := by
  rcases h.before.of_act with ⟨hq, -⟩ | ⟨u, hu, -, hq, ht⟩
  · cases hq
  · cases hq
    exact ⟨u, hu, rfl, ht⟩

theorem index_of_outside {s t : Share β} (h : Relation.ReflTransGen Outside s t) : t.index = s.index := by
  induction h with
  | refl => rfl
  | tail _ h ih => rw [h.index, ih]

theorem held_of_outside {s t : Share β} (h : Relation.ReflTransGen Outside s t) (hs : Held replica s) :
    Held replica t := by
  induction h with
  | refl => exact hs
  | tail _ h ih => exact ⟨h.replica.trans ih.1, fun path => by rw [h.seen]; exact ih.2 path⟩

theorem reaches_of_outside {p : Io (Share β) α} {s t : Share β} (h : Relation.ReflTransGen Outside s t) :
    Prog.Reaches Outside p s p t := by
  induction h with
  | refl => exact .refl
  | tail _ h ih => exact ih.env h

/-- A loop that looks first how often it may have to go around. -/
theorem ends_looked {g : Index → ℕ} {p : Io (Share β) α} {loop : ℕ → Io (Share β) α} {s s' : Share β} {r : Result α}
    (hloop : ∀ t, Held replica t → t.index = s.index → ∀ m, g s.index < m →
      (Prog.Reaches Outside p t (.ret r) s' ↔ Prog.Reaches Outside (loop m) t (.ret r) s'))
    (hs : Held replica s) :
    Prog.Reaches Outside p s (.ret r) s' ↔
      Prog.Reaches Outside (Fallible.look (fun s : Share β => g s.index) >>= fun n => loop (n + 1) : Io (Share β) α) s
        (.ret r) s' := by
  rw [Fallible.ends_bind]
  constructor
  · intro h
    have hlook : Prog.Reaches Outside (Fallible.look (fun s : Share β => g s.index) : Io (Share β) ℕ) s
        (.ret (.ok (g s.index))) s := .step .refl
    exact .inr ⟨_, s, hlook, (hloop s hs rfl _ (Nat.lt_succ_self _)).mp h⟩
  · rintro (⟨e, -, h⟩ | ⟨n, t, hn, h⟩)
    · rcases h.before.of_act with ⟨hq, -⟩ | ⟨u, -, -, hq, -⟩
      · cases hq
      · cases hq
    · obtain ⟨u, hu, rfl, ht⟩ := look_of_reaches hn
      have hst := hu.trans ht
      rw [index_of_outside hu] at h
      refine (reaches_of_outside hst).trans ((hloop t ?_ ?_ _ (Nat.lt_succ_self _)).mpr h)
      · exact held_of_outside hst hs
      · exact index_of_outside hst

theorem applyPages_eq (peer : String) (n : ℕ) : (applyPages P peer n : Io (Share β) Unit) =
    (applyTurn P peer)^[n] (Fallible.fail (.message "unfinished application")) := by
  induction n with
  | zero => rfl
  | succ n ih => rw [applyPages, Function.iterate_succ_apply', ih]

theorem ends_applyTurn (peer : String) (bottom bottom' : Io (Share β) Unit) {s s' : Share β} {n m : ℕ} {r : Result Unit}
    (hs : Held replica s) (hn : s.index.candidates.length < n) (hm : s.index.candidates.length < m) :
    Prog.Reaches Outside ((applyTurn P peer)^[n] bottom) s (.ret r) s' ↔
      Prog.Reaches Outside ((applyTurn P peer)^[m] bottom') s (.ret r) s' := by
  refine Fallible.ends_rounds (Held replica) (fun s => s.index.candidates.length) (fun again => rfl)
    (fun s paths t t' hs hlook hne hround => ?_) bottom bottom' hs hn hm
  obtain ⟨u, hu, rfl, ht⟩ := look_of_reaches hlook
  have hst := hu.trans ht
  rw [index_of_outside hu] at hne hround
  have hleft : Left s.index.candidates [] t.index := fun q => by simp [index_of_outside hst]
  have hheld : Held replica t := held_of_outside hst hs
  have hpost := ((left_applyPage peer s.index.candidates _ t ⟨hheld, hleft⟩).reaches hround).post_of_ret
  obtain ⟨path, hpath⟩ := List.exists_mem_of_ne_nil _ hne
  refine ⟨hpost.1, length_lt_of_subset Index.nodup_candidates (fun q hq => ((hpost.2 q).mp hq).1)
    (List.mem_of_mem_take hpath) fun hmem => ((hpost.2 path).mp hmem).2 (by simpa using hpath)⟩

theorem pullPages_eq (peer : String) (n : ℕ) : pullPages P W peer n =
    (pullTurn P W peer)^[n] (Fallible.fail (.message "unfinished transfer")) := by
  induction n with
  | zero => rfl
  | succ n ih => rw [pullPages, Function.iterate_succ_apply', ih]

theorem ends_pullTurn (peer : String) (bottom bottom' : Io (Share β) Unit) {s s' : Share β} {n m : ℕ} {r : Result Unit}
    (hs : Held replica s) (hn : s.index.needed.size < n) (hm : s.index.needed.size < m) :
    Prog.Reaches Outside ((pullTurn P W peer)^[n] bottom) s (.ret r) s' ↔
      Prog.Reaches Outside ((pullTurn P W peer)^[m] bottom') s (.ret r) s' := by
  have hturn : ∀ again, pullTurn P W peer again = ((do
      let missing ← missingObjects 16
      send (.objects missing)
      pure missing : Io (Share β) (List String)) >>= fun missing =>
        if missing = [] then pure () else pullPage P W peer missing >>= fun _ => again) := fun again => by
    rw [Fallible.bind_assoc]
    refine congrArg (missingObjects 16 >>= ·) (funext fun missing => ?_)
    rw [Fallible.bind_assoc]
    rfl
  refine Fallible.ends_rounds (Held replica) (fun s => s.index.needed.size) hturn
    (fun s missing t t' hs hhead hne hround => ?_) bottom bottom' hs hn hm
  have hknown : Triple (terms P replica true true) (Own replica s.index) (do
      let missing ← missingObjects 16
      send (.objects missing)
      pure missing : Io (Share β) (List String))
      (outcome (fun missing t => Own replica s.index t ∧ missing = s.index.needed.toList.take 16)
        fun _ => Held replica) := by
    refine Triple.seq (V := fun missing => missing = s.index.needed.toList.take 16) ?_ fun missing hmissing => ?_
    · refine own_seq (quiet_lift _) fun _ _ => (own_look (V := fun missing => missing = s.index.needed.toList.take 16)
        fun s hs => by rw [hs.2]).conseq (fun _ h => h) fun r s hr => ?_
      cases r with
      | error e => exact hr.1
      | ok a => exact hr
    · refine own_seq (quiet_send _) fun _ _ => ?_
      exact Triple.ofExcept stable_own (fun _ h => h.1) fun s hs => ⟨hs, hmissing⟩
  obtain ⟨hown, rfl⟩ := ((hknown s ⟨hs, rfl⟩).reaches hhead).post_of_ret
  have hwanted : Wanted s.index.needed [] t.index := fun q hq => ⟨hown.2 ▸ hq, by simp⟩
  have hpost := ((wanted_pullPage peer s.index.needed _ t ⟨hown.1, hwanted⟩).reaches hround).post_of_ret
  obtain ⟨hash, hhash⟩ := List.exists_mem_of_ne_nil _ hne
  refine ⟨hpost.1, ?_⟩
  have hnodup : t'.index.needed.toList.Nodup := Std.ExtTreeSet.distinct_toList.imp Std.ReflCmp.ne_of_cmp_ne_eq
  rw [← Std.ExtTreeSet.length_toList, ← Std.ExtTreeSet.length_toList]
  refine length_lt_of_subset hnodup (fun q hq => ?_) (List.mem_of_mem_take hhash) fun hmem => ?_
  · exact Std.ExtTreeSet.mem_toList.mpr (hpost.2 q (Std.ExtTreeSet.mem_toList.mp hq)).1
  · exact (hpost.2 hash (Std.ExtTreeSet.mem_toList.mp hmem)).2 (by simpa using hhash)

theorem ensure_of_reaches {c : Prop} [Decidable c] {text : String} {s t : Share β} {u : Unit}
    (h : Prog.Reaches Outside (liftM (ensure c text) : Io (Share β) Unit) s (.ret (.ok u)) t) : c :=
  ensure_eq_ok.mp (Prog.ret.inj h.before.of_ret.1).symm

theorem readPages_eq (peer : String) (theirs : Hello) (n : ℕ) : readPages P W peer theirs n =
    (readTurn P W peer theirs)^[n] fun _ => Fallible.fail (.message "unordered metadata sequence") := by
  induction n with
  | zero => rfl
  | succ n ih => rw [readPages, Function.iterate_succ_apply', ih]

theorem ends_readTurn (peer : String) (theirs : Hello) (bottom bottom' : ℕ → Io (Share β) Unit) {last n m : ℕ}
    {s s' : Share β} {r : Result Unit} (hlast : last ≤ theirs.sequence) (hn : theirs.sequence < n + last)
    (hm : theirs.sequence < m + last) :
    Prog.Reaches Outside ((readTurn P W peer theirs)^[n] bottom last) s (.ret r) s' ↔
      Prog.Reaches Outside ((readTurn P W peer theirs)^[m] bottom' last) s (.ret r) s' := by
  have hall : ∀ (bottom bottom' : ℕ → Io (Share β) Unit) (n m last : ℕ) (s : Share β), last ≤ theirs.sequence →
      theirs.sequence < n + last → theirs.sequence < m + last →
      Prog.Reaches Outside ((readTurn P W peer theirs)^[n] bottom last) s (.ret r) s' →
      Prog.Reaches Outside ((readTurn P W peer theirs)^[m] bottom' last) s (.ret r) s' := by
    intro bottom bottom' n
    induction n with
    | zero => exact fun m last s hlast hn => by omega
    | succ n ih =>
      intro m last s hlast hn hm h
      obtain ⟨m, rfl⟩ : ∃ k, m = k + 1 := ⟨m - 1, by omega⟩
      rw [Function.iterate_succ_apply', readTurn, Fallible.ends_bind] at h ⊢
      rcases h with hfails | ⟨u, t, hu, h⟩
      · exact .inl hfails
      refine .inr ⟨u, t, hu, ?_⟩
      rw [Fallible.ends_bind] at h ⊢
      rcases h with hfails | ⟨message, t', hm', h⟩
      · exact .inl hfails
      refine .inr ⟨message, t', hm', ?_⟩
      cases message with
      | end_ => exact h
      | page page =>
        simp only [Fallible.ends_bind] at h ⊢
        rcases h with hfails | ⟨u₁, t₁, hu₁, hfails | ⟨u₂, t₂, hu₂, hfails | ⟨u₃, t₃, hu₃, h⟩⟩⟩
        · exact .inl hfails
        · exact .inr ⟨u₁, t₁, hu₁, .inl hfails⟩
        · exact .inr ⟨u₁, t₁, hu₁, .inr ⟨u₂, t₂, hu₂, .inl hfails⟩⟩
        · obtain ⟨hlt, hle⟩ := lt_lastSeq (ensure_of_reaches hu₁).1 (ensure_of_reaches hu₂)
          exact .inr ⟨u₁, t₁, hu₁, .inr ⟨u₂, t₂, hu₂, .inr ⟨u₃, t₃, hu₃,
            ih m (lastSeq last page) t₃ hle (by omega) (by omega) h⟩⟩⟩
  exact ⟨hall bottom bottom' n m last s hlast hn hm, hall bottom' bottom m n last s hlast hm hn⟩

/-- **The loops end by themselves.** Whatever others do meanwhile, and whatever a peer says: the loops that apply all paths, fetch
all objects and take in all records never come to their bottom when they are unrolled more often than there are paths to be
applied, objects to be fetched, or numbers that the peer has announced. Whatever stands there, they end in the same ways. -/
theorem loops_end (P : Platform) (W : Wire β) (s : Share β) (h : Reachable P W s) (peer : String) (theirs : Hello)
    (fuel : ℕ) (bottom : Io (Share β) Unit) (bottom' : ℕ → Io (Share β) Unit) (r : Result Unit) (s' : Share β) :
    (s.index.candidates.length < fuel →
      (Prog.Reaches Outside ((applyTurn P peer)^[fuel] bottom) s (.ret r) s' ↔
        Prog.Reaches Outside (applyPending P peer) s (.ret r) s')) ∧
    (s.index.needed.size < fuel →
      (Prog.Reaches Outside ((pullTurn P W peer)^[fuel] bottom) s (.ret r) s' ↔
        Prog.Reaches Outside (pullObjects P W peer) s (.ret r) s')) ∧
    (theirs.sequence < fuel →
      (Prog.Reaches Outside ((readTurn P W peer theirs)^[fuel] bottom' 0) s (.ret r) s' ↔
        Prog.Reaches Outside (readMetadata P W peer theirs) s (.ret r) s')) := by
  have hs : Held s.config.replica s := ⟨rfl, h.seenOk⟩
  refine ⟨fun hfuel => ?_, fun hfuel => ?_, fun hfuel => ?_⟩
  · refine ends_looked (g := fun i => i.candidates.length) (fun t ht hindex m hm => ?_) hs
    rw [applyPages_eq]
    exact ends_applyTurn peer _ _ ht (by rwa [hindex]) (by rwa [hindex])
  · refine ends_looked (g := fun i => i.needed.size) (fun t ht hindex m hm => ?_) hs
    rw [pullPages_eq]
    exact ends_pullTurn peer _ _ ht (by rwa [hindex]) (by rwa [hindex])
  · rw [readMetadata, readPages_eq]
    exact ends_readTurn peer theirs _ _ (Nat.zero_le _) (by omega) (by omega)

/-! ### Merging -/

theorem own_seq_lift {r : Result α} {f : α → Io (Share β) γ} {Q : γ → Share β → Prop}
    (hf : ∀ a, r = .ok a → Triple (terms P replica true true) (Own replica i) (f a) (outcome Q fun _ => Held replica)) :
    Triple (terms P replica true true) (Own replica i) (Fallible.ofExcept r >>= f : Io (Share β) γ)
      (outcome Q fun _ => Held replica) :=
  own_seq (Tries.ofExcept fun _ ha => ha) hf

/-- A scan leaves alone what was taken in. -/
theorem own_scanInner (approveDeletes : Bool) :
    Triple (terms P replica true true) (Own replica i) (scanInner P approveDeletes : Io (Share β) ScanReport)
      (outcome (fun _ s => Held replica s ∧ s.index.incoming = i.incoming) fun _ => Held replica) := by
  refine own_seq quiet_checkRoot fun _ _ => own_seq quiet_recover fun _ _ => ?_
  refine own_seq (V := fun _ => True) (Tries.act fun s => ⟨rfl, rfl, rfl, fun _ path => by simp⟩) fun _ _ =>
    own_seq quiet_visit fun _ _ => own_seq quiet_checkRoot fun _ _ => ?_
  refine own_seq_look (g := fun s : Share β => (s.config, s.index, s.seen))
    (V := fun r : Config × Index × Std.ExtTreeMap String Content => r.1.replica = replica ∧ r.2.1 = i ∧
      ∀ path : String, r.2.2[path]? ≠ some Content.deleted)
    (fun s hs => ⟨hs.1.1, hs.2, fun path => hs.1.2 path⟩) fun r hr => ?_
  obtain ⟨config, index, seen⟩ := r
  obtain ⟨rfl, rfl, hseen⟩ := hr
  refine own_seq_lift fun r hscan => ?_
  obtain ⟨index', report⟩ := r
  replace hscan : index.scan P config.replica approveDeletes seen = .ok (index', report) := hscan
  refine own_seq quiet_checkRoot fun _ _ => Triple.andThen (own_transaction fun i' hi => ?_) fun _ => ?_
  · obtain rfl := Except.ok.inj hi
    exact Index.scan_chain (fun _ => rfl) hseen hscan
  · refine (Triple.ofExcept (stable_known (A := fun j => (.ok index' : Result Index) = .ok j)) (fun _ h => h.1)
      fun s hs => ?_)
    refine ⟨hs.1, ?_⟩
    rw [← Except.ok.inj hs.2]
    have hgains : Index.Gains true _ index index' := Index.gains_scan hseen hscan
    exact hgains.incoming

/-- When everything has been applied, nothing is left. -/
theorem triple_applyPages (peer : String) (fuel : ℕ) :
    Triple (terms P replica true true) (Held replica) (applyPages P peer fuel : Io (Share β) Unit)
      (outcome (fun _ s => Held replica s ∧ s.index.candidates = []) fun _ => Held replica) := by
  induction fuel with
  | zero => exact Triple.ofExcept stable_held (fun _ h => h) fun _ h => h
  | succ fuel ih =>
    refine (triple_known_iff (A := fun _ => True).mpr fun i _ => ?_).conseq (fun _ h => ⟨h, trivial⟩) fun _ _ h => h
    refine own_seq_look (V := fun paths => paths = i.candidates.take 256) (fun s hs => by rw [hs.2])
      fun paths hpaths => ?_
    split
    next hnil =>
      refine Triple.ofExcept stable_own (fun _ h => h.1) fun s hs => ⟨hs.1, ?_⟩
      rw [hs.2]
      simpa [hnil] using hpaths.symm
    next =>
      refine Triple.andThen (works_applyPage peer paths).on fun _ => ih

theorem triple_applyPending (peer : String) :
    Triple (terms P replica true true) (Held replica) (applyPending P peer : Io (Share β) Unit)
      (outcome (fun _ s => Held replica s ∧ s.index.candidates = []) fun _ => Held replica) :=
  Triple.andThen (works_quiet (quiet_look _)) fun _ => triple_applyPages peer _

/-- A program that works keeps what transactions keep. -/
theorem Works.keeps {p : Io (Share β) α} (hp : Works P replica true true p) {A : Index → Prop}
    (hA : ∀ i i', Index.Chain P replica true true i i' → A i → A i') :
    Triple (terms P replica true true) (fun s => Held replica s ∧ A s.index) p
      (outcome (fun _ s => Held replica s ∧ A s.index) fun _ => Held replica) :=
  (Triple.keeps hp stable_index fun _ _ _ h => hA _ _ h.1).conseq (fun _ h => h) fun r s hr => by
    cases r with
    | error e => exact hr.1
    | ok a => exact hr

variable (P) in
/-- The index is well formed, and knows what was taken in. -/
def Merged (inc : Std.ExtTreeMap String Versions) (i : Index) : Prop := i.Wf P ∧ i.Knows inc

theorem Merged.chain {inc : Std.ExtTreeMap String Versions} (hid : Function.Injective (Revision.id P)) {i i' : Index}
    (h : Index.Chain P replica true true i i') (hi : Merged P inc i) : Merged P inc i' :=
  ⟨h.wf hid hi.1, hi.2.grows (h.grows hid hi.1)⟩

theorem triple_scan (hid : Function.Injective (Revision.id P)) (inc : Std.ExtTreeMap String Versions) :
    Triple (terms P replica true true) (fun s => Held replica s ∧ (s.index.incoming = inc ∧ s.index.Wf P))
      (scan P false : Io (Share β) ScanReport)
      (outcome (fun _ s => Held replica s ∧ (s.index.incoming = inc ∧ s.index.Wf P)) fun _ => Held replica) := by
  refine (triple_known_iff (A := fun i => i.incoming = inc ∧ i.Wf P)).mpr fun i hi => ?_
  refine own_seq (quiet_look _) fun _ _ => own_seq (quiet_lift _) fun _ _ => ?_
  have hscan : Triple (terms P replica true true) (Own replica i) (scanInner P false : Io (Share β) ScanReport)
      (outcome (fun _ s => Held replica s ∧ s.index.incoming = i.incoming) fun _ => Held replica) := own_scanInner false
  refine (hscan.keeps (A := fun s => s.index.Wf P) stable_index fun _ _ _ h hs => h.1.wf hid hs).conseq
    (fun s hs => ⟨hs, hs.2 ▸ hi.2⟩) fun r s hr => ?_
  cases r with
  | error e => exact hr.1
  | ok a => exact ⟨hr.1.1, hr.1.2.trans hi.1, hr.2⟩

theorem triple_joinStaged (hid : Function.Injective (Revision.id P)) (inc : Std.ExtTreeMap String Versions) :
    Triple (terms P replica true true) (fun s => Held replica s ∧ (s.index.incoming = inc ∧ s.index.Wf P))
      (joinStaged P : Io (Share β) Unit)
      (outcome (fun _ s => Held replica s ∧ Merged P inc s.index) fun _ => Held replica) := by
  refine (triple_known_iff (A := fun i => i.incoming = inc ∧ i.Wf P)).mpr fun i hi => ?_
  refine (own_transaction fun i' h => Index.joinIncoming_chain h).conseq (fun _ h => h) fun r s hr => ?_
  cases r with
  | error e => exact hr
  | ok a =>
    have hchain : Index.Chain P replica true true i s.index := Index.joinIncoming_chain hr.2
    exact ⟨hr.1, hchain.wf hid hi.2, hi.1 ▸ Index.knows_joinIncoming hid hi.2 hr.2⟩

/-- After the merge, all paths are brought to their version sets, and nothing that was merged is lost. -/
theorem triple_brought (hid : Function.Injective (Revision.id P)) (inc : Std.ExtTreeMap String Versions)
    (peer : String) : Triple (terms P replica true true) (fun s => Held replica s ∧ Merged P inc s.index)
      (applyPending P peer : Io (Share β) Unit)
      (outcome (fun _ s => Held replica s ∧ (s.index.candidates = [] ∧ Merged P inc s.index)) fun _ => Held replica) :=
  (Triple.keeps (triple_applyPending peer) stable_index fun _ _ _ h hs => Merged.chain hid h.1 hs).conseq (fun _ h => h)
    fun r s hr => by
      cases r with
      | error e => exact hr.1
      | ok a => exact ⟨hr.1.1, hr.1.2, hr.2⟩

theorem triple_commitIncoming (hid : Function.Injective (Revision.id P)) (hi : i.Wf P) (peer : String) :
    Triple (terms P replica true true) (Own replica i) (commitIncoming P peer : Io (Share β) Unit)
      (outcome (fun _ s => Held replica s ∧ (s.index.candidates = [] ∧ Merged P i.incoming s.index) ∧
        (i.recoveryPending = true → s.index.recoveryPending = false)) fun _ => Held replica) := by
  refine own_seq (quiet_authorize _ _) fun _ _ => own_seq quiet_checkRoot fun _ _ =>
    own_seq (quiet_talk (talk_missingObjects _)) fun _ _ => own_seq (quiet_lift _) fun _ _ => ?_
  refine own_seq_look (V := fun recovering => recovering = i.recoveryPending) (fun s hs => by rw [hs.2])
    fun recovering hrec => ?_
  have hstart : ∀ s : Share β, Own replica i s → Held replica s ∧ (s.index.incoming = i.incoming ∧ s.index.Wf P) :=
    fun s hs => ⟨hs.1, by rw [hs.2], hs.2 ▸ hi⟩
  have hagain : Triple (terms P replica true true) (fun s => Held replica s ∧ Merged P i.incoming s.index)
      (scanInner P false : Io (Share β) ScanReport)
      (outcome (fun _ s => Held replica s ∧ Merged P i.incoming s.index) fun _ => Held replica) :=
    (works_scanInner false fun h => by cases h).keeps fun _ _ h hs => hs.chain hid h
  cases recovering with
  | false =>
    refine ((triple_scan hid i.incoming).conseq hstart fun _ _ h => h).andThen fun _ =>
      (triple_joinStaged hid _).andThen fun _ => (triple_brought hid _ peer).andThen fun _ => ?_
    exact Triple.ofExcept (stable_known (A := fun j => j.candidates = [] ∧ Merged P i.incoming j)) (fun _ h => h.1)
      fun s h => ⟨h.1, h.2, fun h => by rw [← hrec] at h; cases h⟩
  | true =>
    refine ((triple_joinStaged hid i.incoming).conseq hstart fun _ _ h => h).andThen fun _ => hagain.andThen fun _ =>
      (triple_brought hid _ peer).andThen fun _ => ?_
    refine (triple_known_iff (A := fun j => j.candidates = [] ∧ Merged P i.incoming j)).mpr fun j hj => ?_
    rw [if_pos rfl]
    refine (own_transaction fun j' h => ?_).conseq (fun _ h => h) fun r s hr => ?_
    · obtain rfl := Except.ok.inj h
      exact .single (.settle rfl ⟨⟨rfl, rfl, rfl, rfl, fun _ _ h => .inl h, fun _ h => .inl h⟩, fun h => by cases h⟩)
    · cases r with
      | error e => exact hr
      | ok a =>
        rw [outcome, ← Except.ok.inj hr.2]
        exact ⟨hr.1, ⟨hj.1, ⟨⟨hj.2.1.rows, hj.2.1.incoming⟩, hj.2.2⟩⟩, fun _ => rfl⟩

/-- **A merge that succeeds is complete.** Whatever others do meanwhile: when a share has merged what it had taken in
without an error, its version sets know all of it, it does not await a peer any more, and every path that does not
await a decision has been brought to its version set: everything in it was seen, and the selected content stands in the
folder, or nothing if that is a deletion. -/
theorem commit_complete (P : Platform) (hid : Function.Injective (Revision.id P)) (W : Wire β) (s : Share β)
    (h : Reachable P W s) (peer : String) (s' : Share β)
    (hr : Prog.Reaches Outside (commitIncoming P peer) s (.ret (.ok ())) s') :
    (∀ (path : String) (v : Versions), s.index.incoming[path]? = some v →
      ∃ l, s'.index.entries[path]? = some l ∧ v.known ≤ l.versions.known) ∧
    s'.index.recoveryPending = false ∧
    ∀ (path : String) (l : Row), s'.index.entries[path]? = some l → path ∉ s'.index.pending →
      l.observed = l.versions ∧ l.materialized = (l.versions.selected P).bind fun r => Index.visible r.content := by
  have hs : Held s.config.replica s := ⟨rfl, h.seenOk⟩
  obtain ⟨-, ⟨hnone, hwf, hknows⟩, hsettled⟩ :=
    ((triple_commitIncoming hid (h.wf hid) peer s ⟨hs, rfl⟩).reaches hr).post_of_ret
  have hworks : Works P s.config.replica true true (commitIncoming P peer : Io (Share β) Unit) :=
    works_commitIncoming peer
  obtain ⟨hchain, -⟩ := hworks.chain hs hr
  refine ⟨hknows, ?_, fun path l hl hp => ?_⟩
  · cases hpending : s'.index.recoveryPending with
    | false => rfl
    | true => exact absurd (hsettled (hchain.awaited hpending)) (by simp [hpending])
  · have hall : l.observed = l.versions := by
      by_contra hne
      have hmem : path ∈ s'.index.candidates := Index.mem_candidates_iff.mpr ⟨l, hl, Ne.symm hne, hp⟩
      rw [hnone] at hmem
      cases hmem
    exact ⟨hall, (hwf.rows path l hl).visible hall⟩

/-- A new share like `fresh`, and what a peer is going to send. -/
def visited (log : List Message) : Share Mail :=
  ⟨fresh.files, true, ∅, fresh.index, ∅, fresh.config, fresh.random, ⟨log, 0⟩, []⟩

/-- Another peer comes. -/
theorem outside_input (s : Share β) (input : β) : Outside s { s with input := input } := ⟨rfl, rfl, rfl, rfl, rfl, rfl⟩

/-- The share after a peer has told it of a file, and gone away. -/
def asking : Share Mail :=
  (Fallible.run ((Op.session "peer" false 0).program .sample mail) (visited
    [.hello ⟨"folder", zeroHash, 1, "", 0, .bidirectional⟩,
      .metadata (.page [⟨"x", ⟨[⟨⟨.ofList [("b", 1)]⟩, .file zeroHash⟩]⟩, 1⟩]), .metadata .end_])).2

/-- The share when another peer comes that sends the object. -/
def supplied : Share Mail :=
  { asking with
    input := ⟨[.manifest ⟨32, zeroHash, [zeroHash]⟩, .block 0 (List.replicate 32 0), .text "commit"], 0⟩ }

theorem reachable_supplied : Reachable .sample mail supplied := by
  have hasking : Reachable .sample mail asking :=
    .run (.session "peer" false 0) (.create ⟨rfl, rfl⟩) (Prog.reaches_run _ _ _)
  exact .run (.scan false) hasking (.env .refl (outside_input asking _))

/-- The object is fetched in one turn, and the second turn finds that it is not missing any more. -/
theorem loops_end_supplied : ∃ s', s'.index.needed.isEmpty = true ∧
    Prog.Reaches Outside (pullObjects .sample mail "peer") supplied (.ret (.ok ())) s' := by
  have hrun : (Fallible.run ((pullTurn .sample mail "peer")^[2] (Fallible.fail (.message "bottom"))) supplied).1 = .ok () := by
    decide +kernel
  have hreach := Prog.reaches_run Outside ((pullTurn .sample mail "peer")^[2] (Fallible.fail (.message "bottom"))) supplied
  rw [show (Prog.run ((pullTurn .sample mail "peer")^[2] (Fallible.fail (.message "bottom"))) supplied).1 = .ok () from
    hrun] at hreach
  refine ⟨_, ?_, ((loops_end .sample mail supplied reachable_supplied "peer" (greeting "peer" supplied) 2 _
    (fun _ => Fallible.fail (.message "bottom")) (.ok ()) _).2.1 (by decide +kernel)).mp hreach⟩
  decide +kernel

/-- The share after a peer has told it of a directory, and gone away. -/
def listening : Share Mail :=
  (Fallible.run ((Op.session "peer" true 0).program .sample mail) (visited
    [.hello ⟨"folder", zeroHash, 1, "", 0, .bidirectional⟩,
      .metadata (.page [⟨"x", ⟨[⟨⟨.ofList [("b", 1)]⟩, .directory⟩]⟩, 1⟩]), .metadata .end_])).2

theorem reachable_listening : Reachable .sample mail listening :=
  .run (.session "peer" true 0) (.create ⟨rfl, rfl⟩) (Prog.reaches_run _ _ _)

/-- What it was told is merged. -/
theorem commit_complete_heard : ∃ (v : Versions) (s' : Share Mail) (l : Row), listening.index.incoming["x"]? = some v ∧
    s'.index.entries["x"]? = some l ∧ v.known ≤ l.versions.known := by
  obtain ⟨v, hv⟩ := Option.isSome_iff_exists.mp (show listening.index.incoming["x"]?.isSome = true by decide +kernel)
  have hrun : (Fallible.run (commitIncoming .sample "peer") listening).1 = .ok () := by decide +kernel
  have hreach := Prog.reaches_run Outside (commitIncoming .sample "peer" : Io (Share Mail) Unit) listening
  rw [show (Prog.run (commitIncoming .sample "peer" : Io (Share Mail) Unit) listening).1 = .ok () from hrun] at hreach
  obtain ⟨l, hl, hle⟩ := (commit_complete .sample (Revision.id_injective Platform.sample_blake3_injective) mail listening
    reachable_listening "peer" _ hreach).1 "x" v hv
  exact ⟨v, _, l, hv, hl, hle⟩

end Share

end Everywhere
