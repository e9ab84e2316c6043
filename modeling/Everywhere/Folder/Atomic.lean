import Everywhere.Folder.Recovery

/-!
# Crashes

`apply` is followed here through crashes, its own and those of the recoveries after it, while nobody else acts.
What the path shows is the content before or the content after, or nothing while the displaced file is in
place and the record of it is whole (`Seen`). With the journal (`Journal`) that decides what the next
`recover` does.

* `apply_crash_atomic` — `recover` brings the path to one of the two contents, **unless** the crash cut
  the record short.
* `apply_crash_torn` — a record that was created and not written yet makes every `recover` fail.
-/

namespace Everywhere

open Library

/-! ### What leaves a path alone -/

section leaves

variable {P : Platform} {fs fs' : Files} {p q : FilePath} {c : Option Content}

theorem contentOf_eq {i : ℕ} (h : fs.node p = some (.file i)) : contentOf P fs p =
    if (fs.inode i).bytes.length ≤ maxSize then .ok (some (.file (P.blake3 (fs.inode i).bytes)))
    else .error (.message "file exceeds 1 TiB alpha limit") := by
  rw [contentOf, Files.lookup_eq_ok.mpr h]

theorem contentOf_leaves (h : Files.Leaves p fs fs') : contentOf P fs' p = contentOf P fs p := by
  by_cases hf : ∃ i, fs.node p = some (.file i)
  · obtain ⟨i, hi⟩ := hf
    rw [contentOf_eq hi, contentOf_eq (h.node.trans hi), h.2 i hi]
  · rw [contentOf, contentOf, h.lookup]
    rcases hl : fs.lookup p with e | n
    · cases e <;> rfl
    · cases n with
      | file i => exact absurd ⟨i, Files.lookup_eq_ok.mp hl⟩ hf
      | dir => rfl
      | link => rfl
      | special => rfl

/-- A directory on the way that was not there does not show. -/
theorem contentOf_parents (hadds : Files.Adds q fs fs') (hdir : fs'.node q = fs.node q ∨ fs'.node q = some .dir)
    (hq : q ≠ p) (h : contentOf P fs p = .ok c) : contentOf P fs' p = .ok c := by
  have hnode : ∀ r, fs'.node r = fs.node r ∨ r = q ∧ fs'.node r = some .dir := fun r => by
    rcases hadds.1 r with h | ⟨rfl, -⟩
    · exact .inl h
    · exact hdir.imp id fun h => ⟨rfl, h⟩
  have hp : fs'.node p = fs.node p := (hnode p).resolve_right fun h => hq h.1.symm
  cases c with
  | none =>
    obtain ⟨hnone, hway⟩ := Files.lookup_notFound.mp (contentOf_none.mp h)
    refine contentOf_none.mpr (Files.lookup_notFound.mpr ⟨hp.trans hnone, fun r hr hne => ?_⟩)
    rcases hnode r with he | he
    · rw [he]
      exact hway r hr hne
    · exact .inr he.2
  | some c =>
    rcases hl : fs.lookup p with e | n
    · rw [contentOf, hl] at h
      cases e <;> cases h
    · have hn := Files.lookup_eq_ok.mp hl
      cases n with
      | file i =>
        rw [contentOf_eq hn] at h
        rwa [contentOf_eq (hp.trans hn), hadds.2 i (fs.lt_fresh _ _ hn)]
      | dir =>
        rw [contentOf_dir hn] at h
        rwa [contentOf_dir (hp.trans hn)]
      | link => rw [contentOf, hl] at h; cases h
      | special => rw [contentOf, hl] at h; cases h

end leaves

/-! ### Programs that are alone -/

section remains

variable {I X : Files → Prop} {α β : Type}

/-- The program, alone, keeps a condition at all times, also when it fails. -/
def Remains (I X : Files → Prop) (x : Io Files α)
    (Q : α → Files → Prop) : Prop :=
  Triple (alone I) X x (outcome Q fun _ => I)

theorem Remains.andThen {x : Io Files α} {f : α → Io Files β} {M : α → Files → Prop} {Q : β → Files → Prop}
    (hx : Remains I X x M) (hf : ∀ a, Remains I (M a) (f a) Q) :
    Remains I X (x >>= f) Q := Triple.andThen hx hf

theorem remains_ofExcept {r : Result α} {Q : α → Files → Prop} (hX : ∀ fs, X fs → I fs)
    (h : ∀ a fs, r = .ok a → X fs → Q a fs) : Remains I X (Fallible.ofExcept r : Io Files α) Q :=
  Triple.ofExcept (alone_stable _) hX fun fs hs => by
    rcases r with e | a
    · exact hX fs hs
    · exact h a fs rfl hs

theorem remains_pure {a : α} (hX : ∀ fs, X fs → I fs) :
    Remains I X (pure a : Io Files α) fun _ => X :=
  remains_ofExcept hX fun _ _ _ h => h

theorem remains_fail {e : Error} {Q : α → Files → Prop} (hX : ∀ fs, X fs → I fs) :
    Remains I X (Fallible.fail e : Io Files α) Q :=
  remains_ofExcept hX fun _ _ h => by cases h

theorem remains_call {op : Files → Files.Outcome α} {Q : α → Files → Prop} (hX : ∀ fs, X fs → I fs)
    (hpost : ∀ a fs, Q a fs → I fs) (hok : ∀ fs a, X fs → (op fs).1 = .ok a → Q a (op fs).2)
    (herr : ∀ fs e, X fs → (op fs).1 = .error e → I (op fs).2) :
    Remains I X (call op) Q := by
  refine Triple.alone_act hX (fun r fs h => ?_) fun fs h => ?_
  · rcases r with e | a
    · exact h
    · exact hpost a fs h
  · change outcome _ _ ((op fs).1.mapError Error.io) (op fs).2
    rcases hr : (op fs).1 with e | a
    · exact herr fs e h hr
    · exact hok fs a h hr

/-- A call that may fail or not, and keeps a condition. -/
theorem remains_keeping {op : Files → Files.Outcome α} (hX : ∀ fs, X fs → I fs)
    (h : ∀ fs, X fs → X (op fs).2) : Remains I X (call op) fun _ => X :=
  remains_call hX (fun _ => hX) (fun fs _ hs _ => h fs hs) fun fs _ hs _ => hX _ (h fs hs)

/-- A program that only looks, and what it sees. -/
theorem remains_looks {V : α → Prop} {x : Io Files α} (hX : ∀ fs, X fs → I fs)
    (h : Tries Looks V x) :
    Remains I X x fun a fs => X fs ∧ Fallible.run x fs = (.ok a, fs) :=
  (Does.alone h hX).conseq (fun _ h => h) fun r fs hr => by
    rcases r with e | a
    · exact hX fs hr.1
    · exact hr

theorem remains_look {op : Files → Files.Outcome α} (hX : ∀ fs, X fs → I fs) (h : ∀ fs, (op fs).2 = fs) :
    Remains I X (call op) fun _ => X :=
  remains_keeping hX fun fs hs => by rwa [h]

/-- A call whose error is taken for its result. -/
theorem remains_attempt {op : Files → Files.Outcome α} {Q : Result α → Files → Prop}
    (hX : ∀ fs, X fs → I fs) (hpost : ∀ r fs, Q r fs → I fs)
    (h : ∀ fs, X fs → Q ((op fs).1.mapError .io) (op fs).2) :
    Remains I X (Fallible.attempt (call op)) Q := by
  have hcall : Triple (alone I) X (call op)
      (outcome (fun a => Q (.ok a)) fun e => Q (.error e)) :=
    Triple.alone_act hX (fun r fs h => by
      rcases r with e | a
      · exact hpost _ fs h
      · exact hpost _ fs h) fun fs hs => by
        change outcome _ _ ((op fs).1.mapError Error.io) (op fs).2
        have hr := h fs hs
        rcases he : (op fs).1 with e | a
        · rw [he] at hr
          exact hr
        · rw [he] at hr
          exact hr
  exact (Triple.attempt hcall).conseq (fun _ h => h) fun r fs hr => by
    rcases r with e | e | a
    · exact hr
    · exact hr
    · exact hr

end remains

/-! ### What is seen -/

/-- What a path shows of a content. -/
def Content.visible : Content → Option Content
  | .deleted => none
  | c => some c

section

variable (P : Platform) (id : String) (intent : Root.Intent)

/-- The path shows a content. -/
def Shows (c : Option Content) (fs : Files) : Prop := contentOf P fs (filePath intent.path) = .ok c

/-- The whole record is on the disk, and the transaction is not done. -/
structure Recorded (fs : Files) : Prop where
  transaction : fs.node (Root.transaction id) = some .dir
  done : fs.node (Root.done id) = none
  record : ∃ i, fs.node (Root.record id) = some (.file i) ∧ (fs.inode i).bytes = intent.toJson.render

/-- Nothing is at the path, and the file that was there is put aside. -/
structure Displaced (fs : Files) : Prop where
  recorded : Recorded id intent fs
  absent : fs.node (filePath intent.path) = none
  parent : fs.node (filePath intent.path).dropLast = some .dir
  previous : ∃ i, fs.node (Root.previous id) = some (.file i) ∧ (fs.inode i).bytes.length ≤ maxSize ∧
    intent.before = some (.file (P.blake3 (fs.inode i).bytes))

/-- What is seen at all times. -/
def Seen (fs : Files) : Prop :=
  Shows P intent intent.before fs ∨ Shows P intent intent.after.visible fs ∨ Displaced P id intent fs

/-- The staging file has the content after, if there is to be a file. -/
def Carries (fs : Files) : Prop :=
  ∀ hash, intent.after = .file hash → contentOf P fs (Root.incoming id) = .ok (some (.file hash))

end

section seen

variable {P : Platform} {id : String} {intent : Root.Intent} {fs fs' : Files} {α β : Type} {X : Files → Prop}

/-- A step inside the transaction that leaves its mark alone. -/
structure Inside (id : String) (intent : Root.Intent) (fs fs' : Files) : Prop where
  leaves : Files.Leaves (filePath intent.path) fs fs'
  transaction : fs'.node (Root.transaction id) = fs.node (Root.transaction id)
  done : fs'.node (Root.done id) = fs.node (Root.done id)

theorem Shows.inside {c : Option Content} (h : Shows P intent c fs) (hl : Files.Leaves (filePath intent.path) fs fs') :
    Shows P intent c fs' := by
  rwa [Shows, contentOf_leaves hl]

/-! ### Before the record -/

variable (P id intent) in
/-- The content before is shown, and the transaction is not done. -/
structure Begun (fs : Files) : Prop where
  shows : Shows P intent intent.before fs
  transaction : fs.node (Root.transaction id) = some .dir
  done : fs.node (Root.done id) = none

theorem Begun.seen (h : Begun P id intent fs) : Seen P id intent fs := .inl h.shows

theorem Begun.inside (h : Begun P id intent fs) (hi : Inside id intent fs fs') : Begun P id intent fs' :=
  ⟨h.shows.inside hi.leaves, hi.transaction.trans h.transaction, hi.done.trans h.done⟩

/-- Making a name of the transaction. -/
theorem inside_adds (hp : ¬ recovery <+: filePath intent.path) {x : String} (hx : x ≠ "done")
    (h : Files.Adds (Root.transaction id ++ [x]) fs fs') : Inside id intent fs fs' := by
  have hsame : ∀ q, Root.transaction id ++ [x] ≠ q → fs'.node q = fs.node q :=
    fun q hne => (h.1 q).resolve_right fun hq => hne hq.1.symm
  refine ⟨h.leaves fun hq => hp ((recovery_prefix_transaction id _).trans hq), hsame _ (by simp), hsame _ ?_⟩
  intro he
  exact hx (by simpa [Root.done] using he)

theorem inside_removeFile (hp : ¬ recovery <+: filePath intent.path) {x : String} (hx : x ≠ "done") :
    Inside id intent fs (fs.removeFile (Root.transaction id ++ [x])).2 := by
  refine ⟨Files.leaves_removeFile fun hq => hp ((recovery_prefix_transaction id _).trans hq),
    Files.removeFile_ne (by simp), Files.removeFile_ne ?_⟩
  intro he
  exact hx (by simpa [Root.done] using he.symm)

theorem inside_append {file : ℕ} {b : UInt8} (h : fs.node (filePath intent.path) ≠ some (.file file)) :
    Inside id intent fs (fs.append file b).2 := ⟨Files.leaves_setInode h, rfl, rfl⟩

/-- A new file of the transaction is not the one at the path. -/
theorem remains_createNew (hp : ¬ recovery <+: filePath intent.path) {x : String} (hx : x ≠ "done") {X : Files → Prop}
    (hX : ∀ fs, X fs → Seen P id intent fs) {Q : ℕ → Files → Prop} (hpost : ∀ i fs, Q i fs → Seen P id intent fs)
    (h : ∀ fs fs', X fs → Inside id intent fs fs' → Files.Adds (Root.transaction id ++ [x]) fs fs' →
      fs'.node (Root.transaction id ++ [x]) = some (.file fs.fresh) → (fs'.inode fs.fresh).bytes = [] →
      fs'.node (filePath intent.path) ≠ some (.file fs.fresh) → Q fs.fresh fs') :
    Remains (Seen P id intent) X (call (Files.createNew (Root.transaction id ++ [x]))) Q := by
  refine remains_call hX hpost (fun fs i hs hok => ?_) fun fs e hs he => by
    rw [Files.createNew_error he]
    exact hX fs hs
  obtain ⟨rfl, hnode⟩ := Files.createNew_ok hok
  have hinside : Inside id intent fs _ := inside_adds hp hx (Files.adds_createNew (p := Root.transaction id ++ [x]))
  refine h fs _ hs hinside Files.adds_createNew hnode (Files.createNew_bytes hok) fun hpath => ?_
  rw [hinside.leaves.node] at hpath
  exact lt_irrefl _ (fs.lt_fresh _ _ hpath)

theorem remains_stageIncoming (hp : ¬ recovery <+: filePath intent.path) {hash : String}
    (hafter : intent.after = .file hash) (object : Option (Result Bytes)) :
    Remains (Seen P id intent) (Begun P id intent) (Root.stageIncoming P id hash (object.map Fallible.ofExcept))
      fun _ fs => Begun P id intent fs ∧ Carries P id intent fs := by
  have hseen : ∀ fs, Begun P id intent fs → Seen P id intent fs := fun _ h => h.seen
  rcases object with _ | input
  · exact remains_fail hseen
  have hcreate : Remains (Seen P id intent) (Begun P id intent) (call (Files.createNew (Root.incoming id)))
      fun file fs => Begun P id intent fs ∧ fs.node (filePath intent.path) ≠ some (.file file) :=
    remains_createNew hp (by decide) hseen (fun _ _ h => h.1.seen)
      fun fs fs' hs hi _ _ _ hfile => ⟨hs.inside hi, hfile⟩
  have hwrite : ∀ (file : ℕ) (bytes : Bytes), Remains (Seen P id intent)
      (fun fs => Begun P id intent fs ∧ fs.node (filePath intent.path) ≠ some (.file file))
      (writeAll file bytes : Io Files Unit) fun _ => Begun P id intent := by
    intro file bytes
    induction bytes with
    | nil => exact remains_ofExcept (fun _ h => h.1.seen) fun _ _ _ h => h.1
    | cons b bytes ih =>
      refine Remains.andThen (?_ : Remains _ _ (call (Files.append file b)) _) fun _ => ih
      exact remains_keeping (fun _ h => h.1.seen) fun fs h => ⟨h.1.inside (inside_append h.2), h.2⟩
  refine Remains.andThen (remains_ofExcept hseen fun _ _ _ h => h) fun bytes => hcreate.andThen fun file => ?_
  refine (hwrite file bytes).andThen fun _ => (remains_looks hseen (looks_readContent P _)).andThen fun staged => ?_
  refine Remains.andThen (?_ : Remains _ _ (liftM (ensure _ _)) fun _ fs => Begun P id intent fs ∧ Carries P id intent fs)
    fun _ => ?_
  · refine remains_ofExcept (fun _ h => h.1.seen) fun _ fs hok h => ⟨h.1, fun hash' hafter' => ?_⟩
    rw [hafter, Content.file.injEq] at hafter'
    rw [run_readContent, Prod.mk.injEq] at h
    rw [h.2.1, ensure_eq_ok.mp hok, hafter']
  · have hboth : ∀ fs, Begun P id intent fs ∧ Carries P id intent fs → Seen P id intent fs := fun _ h => h.1.seen
    have hother : ¬ Root.linkProbe id <+: Root.incoming id := fun h => by
      have := h.eq_of_length (by simp [Root.linkProbe, Root.incoming])
      simp [Root.linkProbe, Root.incoming] at this
    have hlink : Remains (Seen P id intent) (fun fs => Begun P id intent fs ∧ Carries P id intent fs)
        (call (Files.link (Root.incoming id) (Root.linkProbe id)))
        fun _ fs => Begun P id intent fs ∧ Carries P id intent fs :=
      remains_keeping hboth fun fs h => ⟨h.1.inside (inside_adds hp (by decide) Files.adds_link), fun hash hh => by
        rw [contentOf_leaves (Files.adds_link.leaves hother)]
        exact h.2 hash hh⟩
    refine hlink.andThen fun _ => ?_
    exact remains_keeping hboth fun fs h => ⟨h.1.inside (inside_removeFile hp (by decide)), fun hash hh => by
      rw [contentOf_leaves (Files.leaves_removeFile hother)]
      exact h.2 hash hh⟩

/-! ### The record -/

variable (P id intent) in
/-- The whole record is written, and the path still shows the content before. -/
structure Ready (fs : Files) : Prop where
  shows : Shows P intent intent.before fs
  recorded : Recorded id intent fs

theorem Recorded.inside (h : Recorded id intent fs) (hi : Inside id intent fs fs')
    (hr : fs'.node (Root.record id) = fs.node (Root.record id))
    (hb : ∀ i, fs.node (Root.record id) = some (.file i) → (fs'.inode i).bytes = (fs.inode i).bytes) :
    Recorded id intent fs' := by
  obtain ⟨i, hi', hbytes⟩ := h.record
  exact ⟨hi.transaction.trans h.transaction, hi.done.trans h.done, i, hr.trans hi', (hb i hi').trans hbytes⟩

theorem remains_writeRecord (hp : ¬ recovery <+: filePath intent.path) :
    Remains (Seen P id intent) (fun fs => Begun P id intent fs ∧ Carries P id intent fs)
      (Root.writeRecord id intent : Io Files Unit) fun _ fs => Ready P id intent fs ∧ Carries P id intent fs := by
  -- so much of the record is written
  let Part (file : ℕ) (b : Bytes) (fs : Files) : Prop := (Begun P id intent fs ∧ Carries P id intent fs) ∧
    (fs.node (Root.record id) = some (.file file) ∧ (fs.inode file).bytes = b) ∧
      fs.node (filePath intent.path) ≠ some (.file file) ∧ fs.node (Root.incoming id) ≠ some (.file file)
  have hcreate : Remains (Seen P id intent) (fun fs => Begun P id intent fs ∧ Carries P id intent fs)
      (call (Files.createNew (Root.record id))) fun file => Part file [] := by
    refine remains_createNew hp (by decide) (fun _ h => h.1.seen) (fun _ _ h => h.1.1.seen)
      fun fs fs' hs hi hadds hnode hbytes hfile => ?_
    have hother : ¬ Root.record id <+: Root.incoming id := fun h => by
      have := h.eq_of_length_le (by simp [Root.record, Root.incoming])
      simp [Root.record, Root.incoming] at this
    have hleaves := Files.Adds.leaves hadds hother
    refine ⟨⟨hs.1.inside hi, fun hash hh => ?_⟩, ⟨hnode, hbytes⟩, hfile, fun hin => ?_⟩
    · rw [contentOf_leaves hleaves]
      exact hs.2 hash hh
    · rw [hleaves.node] at hin
      exact lt_irrefl _ (fs.lt_fresh _ _ hin)
  have hwrite : ∀ (file : ℕ) (rest b : Bytes), b ++ rest = intent.toJson.render →
      Remains (Seen P id intent) (Part file b) (writeAll file rest : Io Files Unit)
        fun _ fs => Ready P id intent fs ∧ Carries P id intent fs := by
    intro file rest
    induction rest with
    | nil =>
      intro b hb
      refine remains_ofExcept (fun _ h => h.1.1.seen) fun _ fs _ h => ⟨⟨h.1.1.shows, h.1.1.transaction, h.1.1.done,
        file, h.2.1.1, ?_⟩, h.1.2⟩
      rw [h.2.1.2, ← hb, List.append_nil]
    | cons x rest ih =>
      intro b hb
      have hstep : Remains (Seen P id intent) (Part file b) (call (Files.append file x)) fun _ => Part file (b ++ [x]) := by
        refine remains_call (fun _ h => h.1.1.seen) (fun _ _ h => h.1.1.seen) (fun fs _ h _ => ?_)
          fun fs e _ he => by cases he
        have hcarries : Files.Leaves (Root.incoming id) fs (fs.append file x).2 := Files.leaves_setInode h.2.2.2
        refine ⟨⟨h.1.1.inside (inside_append h.2.2.1), fun hash hh => ?_⟩, ⟨h.2.1.1, ?_⟩, h.2.2⟩
        · rw [contentOf_leaves hcarries]
          exact h.1.2 hash hh
        · simp [Files.append, Files.inode_setInode, h.2.1.2]
      exact hstep.andThen fun _ => ih (b ++ [x]) (by simpa using hb)
  refine hcreate.andThen fun file => (hwrite file _ [] rfl).andThen fun _ => ?_
  have hready : ∀ fs, Ready P id intent fs ∧ Carries P id intent fs → Seen P id intent fs := fun _ h => .inl h.1.shows
  exact (remains_look hready fun _ => rfl).andThen fun _ => (remains_look hready fun _ => rfl).andThen fun _ =>
    remains_look hready fun _ => rfl

/-! ### The path -/

variable (P id intent) in
/-- The file is at the path still, or put aside. -/
def Moved (fs : Files) : Prop :=
  (Ready P id intent fs ∨ Displaced P id intent fs) ∧ Carries P id intent fs

theorem Moved.seen (h : Moved P id intent fs) : Seen P id intent fs :=
  h.1.elim (fun h => .inl h.shows) fun h => .inr (.inr h)

/-- Putting the file aside. -/
theorem moved_rename (hp : ¬ recovery <+: filePath intent.path) {hash : String} (hbefore : intent.before = some (.file hash))
    (h : Ready P id intent fs ∧ Carries P id intent fs) :
    Moved P id intent (fs.rename (filePath intent.path) (Root.previous id)).2 := by
  have hne := filePath_ne_nil intent.path
  have hagrees : Agrees fs (fs.rename (filePath intent.path) (Root.previous id)).2 := agrees_rename hp hne
  obtain ⟨⟨hshows, hrec⟩, hcarries⟩ := h
  rcases Files.rename_cases (filePath intent.path) (Root.previous id) fs with hr | ⟨hr, hpre, ha⟩
  · rw [hr]
    exact ⟨.inl ⟨hshows, hrec⟩, hcarries⟩
  · obtain ⟨i, hi, hsize, hhash⟩ := node_of_contentOf (hshows.trans (by rw [hbefore]))
    have hnode := fun q => @Files.node_move fs _ q _ _ hne hpre (Files.ancestors_concat.mp ha)
    have hprev : ¬ Root.previous id <+: filePath intent.path :=
      fun h => hp ((recovery_prefix_transaction id _).trans h)
    have hshort : ¬ (filePath intent.path).length ≤ (filePath intent.path).dropLast.length := by
      have := List.length_pos_of_ne_nil hne
      rw [List.length_dropLast]
      omega
    rw [hr] at hagrees ⊢
    refine ⟨.inr ⟨⟨hagrees.transaction id ▸ hrec.transaction, hagrees.done id ▸ hrec.done, ?_⟩, ?_, ?_, i, ?_, ?_, ?_⟩,
      fun hash' hafter => ?_⟩
    · obtain ⟨j, hj, hb⟩ := hrec.record
      exact ⟨j, hagrees.record id ▸ hj, (hagrees.bytes id j (Files.opened_file hj)).trans hb⟩
    · exact (hnode _).trans ((if_neg hprev).trans (if_pos List.prefix_rfl))
    · have hparent := fs.node_of_prefix (p := filePath intent.path) (by simp [hi]) (List.dropLast_prefix _)
        (fun h => hshort (by rw [h]))
      refine (hnode _).trans ((if_neg fun h => hprev (h.trans (List.dropLast_prefix _))).trans ((if_neg fun h => ?_).trans
        hparent))
      exact hshort h.length_le
    · refine (hnode (Root.previous id)).trans ((if_pos List.prefix_rfl).trans ?_)
      change fs.node (filePath intent.path ++ (Root.previous id).drop (Root.previous id).length) = _
      rw [List.drop_length, List.append_nil, hi]
    · rwa [Files.inode_move]
    · rw [Files.inode_move, hbefore, hhash]
    · have hincoming : ∀ q, q <+: Root.incoming id →
          (fs.move (filePath intent.path) (Root.previous id)).node q = fs.node q := by
        intro q hq
        refine (hnode q).trans ((if_neg fun h => ?_).trans (if_neg fun h => ?_))
        · exact previous_outside (by decide) id (h.trans hq)
        · rcases List.prefix_or_prefix_of_prefix (h.trans hq) (recovery_prefix_transaction id ["incoming"]) with h' | h'
          · obtain he := h'.eq_of_length_le (Nat.succ_le_of_lt (List.length_pos_of_ne_nil hne))
            exact hp (he ▸ List.prefix_rfl)
          · exact hp h'
      rw [contentOf_leaves ⟨hincoming, fun _ _ => by rw [Files.inode_move]⟩]
      exact hcarries hash' hafter

/-- A link that is not made changes nothing. -/
theorem link_error {src dst : FilePath} {e : IoError} (h : (fs.link src dst).1 = .error e) : (fs.link src dst).2 = fs := by
  rw [Files.link] at h ⊢
  split at h
  · rfl
  · rfl
  · exact Files.place_error h

/-- A link shows the content of the file. -/
theorem link_ok {src dst : FilePath} (hdst : dst ≠ []) (h : (fs.link src dst).1 = .ok ()) :
    contentOf P (fs.link src dst).2 dst = contentOf P fs src := by
  obtain ⟨⟨n, hdir, hsrc⟩, hd, hn⟩ := (link_eq_ok hdst).mp h
  obtain ⟨q, x, rfl⟩ : ∃ q x, dst = q ++ [x] :=
    ⟨dst.dropLast, dst.getLast hdst, (List.dropLast_append_getLast hdst).symm⟩
  rw [List.dropLast_concat] at hd
  have hnode : (fs.add (q ++ [x]) n).node (q ++ [x]) = some n := by rw [Files.node_add hn hd, if_pos rfl]
  rw [Files.link_eq hsrc hdir hd hn, contentOf, contentOf, Files.lookup_eq_ok.mpr hnode, Files.lookup_eq_ok.mpr hsrc,
    Files.inode_add]

theorem node_of_shown {p : FilePath} {c : Content} (h : contentOf P fs p = .ok (some c)) : fs.node p ≠ none := by
  intro hn
  rw [contentOf] at h
  rcases hl : fs.lookup p with e | n
  · rw [hl] at h
    cases e <;> cases h
  · rw [Files.lookup_eq_ok.mp hl] at hn
    cases hn

/-- Putting the file back. -/
theorem Moved.link_back (hb : intent.before ≠ none) (h : Moved P id intent fs) :
    Seen P id intent (fs.link (Root.previous id) (filePath intent.path)).2 := by
  rcases hl : (fs.link (Root.previous id) (filePath intent.path)).1 with e | ⟨⟩
  · rw [link_error hl]
    exact h.seen
  · obtain ⟨c, hc⟩ := Option.ne_none_iff_exists'.mp hb
    rcases h.1 with hr | hd
    · exact absurd ((link_eq_ok (filePath_ne_nil _)).mp hl).2.2 (node_of_shown (hr.shows.trans (by rw [hc])))
    · obtain ⟨i, hi, hsize, hb⟩ := hd.previous
      refine .inl ?_
      rw [Shows, link_ok (filePath_ne_nil _) hl, contentOf_file hi hsize, hb]

theorem remains_linkBack (hb : intent.before ≠ none) :
    Remains (Seen P id intent) (Moved P id intent)
      (Fallible.attempt (call (Files.link (Root.previous id) (filePath intent.path)))) fun _ => Seen P id intent :=
  remains_attempt (fun _ h => h.seen) (fun _ _ h => h) fun _ h => h.link_back hb

theorem remains_giveUp {text : String} {Q : Unit → Files → Prop} :
    Remains (Seen P id intent) (Seen P id intent) (do
      sync []
      Fallible.fail (.message text) : Io Files Unit) Q :=
  (remains_look (fun _ h => h) fun _ => rfl).andThen fun _ => remains_fail fun _ h => h

theorem remains_displace (hp : ¬ recovery <+: filePath intent.path) {hash : String}
    (hbefore : intent.before = some (.file hash)) :
    Remains (Seen P id intent) (fun fs => Ready P id intent fs ∧ Carries P id intent fs)
      (Root.displace P id intent.path intent.before) fun _ => Moved P id intent := by
  have hmoved : ∀ fs, Moved P id intent fs → Seen P id intent fs := fun _ h => h.seen
  have hrename : Remains (Seen P id intent) (fun fs => Ready P id intent fs ∧ Carries P id intent fs)
      (call (Files.rename (filePath intent.path) (Root.previous id))) fun _ => Moved P id intent :=
    remains_call (fun _ h => .inl h.1.shows) (fun _ => hmoved) (fun fs _ h _ => moved_rename hp hbefore h)
      fun fs _ h _ => (moved_rename hp hbefore h).seen
  refine hrename.andThen fun _ => (remains_look hmoved fun _ => rfl).andThen fun _ =>
    (remains_look hmoved fun _ => rfl).andThen fun _ => (remains_looks hmoved (looks_readContent P _)).andThen
    fun displaced => ?_
  split
  · have hb : intent.before ≠ none := by rw [hbefore]; simp
    exact Triple.conseq ((remains_linkBack hb).andThen fun _ => remains_giveUp) (fun _ h => h.1) fun _ _ h => h
  · exact remains_ofExcept (fun _ h => h.1.seen) fun _ _ _ h => h.1

theorem remains_publish (hpath : validatePath intent.path = .ok ()) (hafter : intent.after ≠ .directory) :
    Remains (Seen P id intent) (Moved P id intent) (Root.publish P id intent.path intent.before intent.after)
      fun _ => Shows P intent intent.after.visible := by
  have hmoved : ∀ fs, Moved P id intent fs → Seen P id intent fs := fun _ h => h.seen
  rcases hc : intent.after with hash | _ | _
  · have hlink : Remains (Seen P id intent) (Moved P id intent)
        (Fallible.attempt (call (Files.link (Root.incoming id) (filePath intent.path))))
        fun r fs => (r = .ok () ∧ Shows P intent (some (.file hash)) fs) ∨ ((∃ e, r = .error e) ∧ Moved P id intent fs) := by
      refine remains_attempt hmoved (fun r fs h => h.elim (fun h => .inr (.inl (by rw [hc]; exact h.2))) fun h => h.2.seen)
        fun fs h => ?_
      rcases hl : (fs.link (Root.incoming id) (filePath intent.path)).1 with e | ⟨⟩
      · rw [link_error hl]
        exact .inr ⟨⟨_, rfl⟩, h⟩
      · refine .inl ⟨rfl, ?_⟩
        rw [Shows, link_ok (filePath_ne_nil _) hl, h.2 hash hc]
    refine hlink.andThen fun r => ?_
    rcases r with e | ⟨⟩
    · have hfail : Remains (Seen P id intent) (Moved P id intent) (do
          sync []
          Fallible.fail (.message "destination appeared during publication; data preserved") : Io Files Unit)
          fun _ => Shows P intent (some (.file hash)) :=
        Triple.conseq remains_giveUp (fun _ h => h.seen) fun _ _ h => h
      refine Triple.conseq (P := Moved P id intent) ?_ (fun fs h => (h.resolve_left (by simp)).2) fun _ _ h => h
      cases hb : intent.before with
      | none => exact hfail
      | some c =>
        have hne : intent.before ≠ none := by rw [hb]; simp
        refine Remains.andThen ((remains_linkBack hne).andThen fun _ => remains_pure fun _ h => h) fun _ => remains_giveUp
    · exact remains_ofExcept (fun fs h => h.elim (fun h => .inr (.inl (by rw [hc]; exact h.2))) fun h => h.2.seen)
        fun _ fs _ h => (h.resolve_right (by simp)).2
  · exact absurd hc hafter
  · refine (remains_looks hmoved (looks_content P _)).andThen fun now => ?_
    refine remains_ofExcept (fun _ h => h.1.seen) fun _ fs hok h => ?_
    rw [run_content hpath, Prod.mk.injEq] at h
    rw [Shows, h.2.1, ensure_eq_ok.mp hok]
    rfl

/-- A step inside the directory of the records does not show. -/
theorem remains_hidden (hp : ¬ recovery <+: filePath intent.path) {c : Option Content}
    (hc : ∀ fs, Shows P intent c fs → Seen P id intent fs) {op : Files → Files.Outcome α}
    (h : ∀ fs, ∃ q, recovery <+: q ∧ (Files.Adds q fs (op fs).2 ∨ (op fs).2 = (fs.removeFile q).2)) :
    Remains (Seen P id intent) (Shows P intent c) (call op) fun _ => Shows P intent c := by
  refine remains_keeping hc fun fs hs => ?_
  obtain ⟨q, hq, hadds | hremove⟩ := h fs
  · exact hs.inside (hadds.leaves fun h => hp (hq.trans h))
  · rw [hremove]
    exact hs.inside (Files.leaves_removeFile fun h => hp (hq.trans h))

theorem remains_finishRecord (hp : ¬ recovery <+: filePath intent.path) {c : Option Content}
    (hc : ∀ fs, Shows P intent c fs → Seen P id intent fs) :
    Remains (Seen P id intent) (Shows P intent c) (Root.finishRecord id : Io Files Unit) fun _ => Shows P intent c := by
  have hcreate : Remains (Seen P id intent) (Shows P intent c) (call (Files.createNew (Root.done id))) fun _ => Shows P intent c :=
    remains_hidden hp hc fun fs => ⟨_, recovery_prefix_transaction id ["done"], .inl Files.adds_createNew⟩
  have hremove : Remains (Seen P id intent) (Shows P intent c) (call (Files.removeFile (Root.incoming id))) fun _ => Shows P intent c :=
    remains_hidden hp hc fun fs => ⟨_, recovery_prefix_transaction id ["incoming"], .inr rfl⟩
  have hsync : Remains (Seen P id intent) (Shows P intent c) (sync (Root.transaction id) : Io Files Unit) fun _ => Shows P intent c :=
    remains_look hc fun _ => rfl
  refine hcreate.andThen fun _ => Remains.andThen (remains_attempt (Q := fun _ => Shows P intent c) hc (fun _ => hc)
    fun _ h => h) fun r => ?_
  split
  · exact hremove.andThen fun _ => hsync
  · exact hsync

theorem remains_openRecovery (hp : ¬ recovery <+: filePath intent.path) :
    Remains (Seen P id intent) (Shows P intent intent.before) (Root.openRecovery : Io Files Unit)
      fun _ => Shows P intent intent.before := by
  have hseen : ∀ fs, Shows P intent intent.before fs → Seen P id intent fs := fun _ h => .inl h
  have hrest : Remains (Seen P id intent) (Shows P intent intent.before) (do
      let kind ← call (Files.metadata recovery)
      ensure (kind = .dir) "unsafe recovery directory"
      sync recovery : Io Files Unit) fun _ => Shows P intent intent.before :=
    (remains_look hseen fun _ => rfl).andThen fun _ => Remains.andThen (remains_ofExcept hseen fun _ _ _ h => h) fun _ =>
      remains_look hseen fun _ => rfl
  refine Remains.andThen (remains_attempt (Q := fun _ => Shows P intent intent.before) hseen (fun _ => hseen)
    fun fs h => h.inside (Files.adds_createDir.leaves hp)) fun r => ?_
  split
  · exact (remains_look hseen fun _ => rfl).andThen fun _ => hrest
  · exact hrest
  · exact Remains.andThen (remains_fail (Q := fun _ => Shows P intent intent.before) hseen) fun _ => hrest

theorem remains_transact (hpath : validatePath intent.path = .ok ()) (hbefore : intent.before ≠ some .directory)
    (hafter : intent.after ≠ .directory) (hshown : intent.before ≠ some .deleted) (object : Option (Result Bytes)) :
    Remains (Seen P id intent) (Shows P intent intent.before)
      (Root.transact P id intent.path intent.before intent.after (object.map Fallible.ofExcept))
      fun _ => Shows P intent intent.after.visible := by
  have hp := recovery_outside hpath
  have hseen : ∀ fs, Shows P intent intent.before fs → Seen P id intent fs := fun _ h => .inl h
  have hafterSeen : ∀ fs, Shows P intent intent.after.visible fs → Seen P id intent fs := fun _ h => .inr (.inl h)
  have hcreate : Remains (Seen P id intent) (Shows P intent intent.before) (call (Files.createDir (Root.transaction id)))
      fun _ => Begun P id intent := by
    have hpre : recovery <+: Root.transaction id := by simpa using recovery_prefix_transaction id []
    have hleaves : ∀ fs, Files.Leaves (filePath intent.path) fs (fs.createDir (Root.transaction id)).2 :=
      fun fs => Files.adds_createDir.leaves fun h => hp (hpre.trans h)
    refine remains_call hseen (fun _ _ h => h.seen) (fun fs _ h hok => ?_) fun fs _ h _ => .inl (h.inside (hleaves fs))
    refine ⟨h.inside (hleaves fs), Files.place_ok hok (by simp [Root.transaction]), ?_⟩
    have hnone := Files.createDir_ok hok
    rw [((@Files.adds_createDir fs (Root.transaction id)).1 (Root.done id)).resolve_right
      fun h => absurd h.1 (by simp [Root.done])]
    by_contra hd
    rw [fs.parent (Root.transaction id) "done" hd] at hnone
    cases hnone
  -- from the record to the end
  have hrest : Remains (Seen P id intent) (fun fs => Begun P id intent fs ∧ Carries P id intent fs) (do
      Root.writeRecord id intent
      if intent.before.isSome then Root.displace P id intent.path intent.before else pure ()
      Root.publish P id intent.path intent.before intent.after
      syncParent (filePath intent.path)
      Root.finishRecord id : Io Files Unit) fun _ => Shows P intent intent.after.visible := by
    have hend : Remains (Seen P id intent) (Moved P id intent) (do
        Root.publish P id intent.path intent.before intent.after
        syncParent (filePath intent.path)
        Root.finishRecord id : Io Files Unit) fun _ => Shows P intent intent.after.visible :=
      (remains_publish hpath hafter).andThen fun _ => (remains_look hafterSeen fun _ => rfl).andThen fun _ =>
        remains_finishRecord hp hafterSeen
    refine (remains_writeRecord hp).andThen fun _ => ?_
    rcases hb : intent.before with _ | c
    · rw [hb] at hend
      exact Triple.conseq hend (fun _ h => ⟨.inl h.1, h.2⟩) fun _ _ h => h
    · cases c with
      | file hash =>
        have hdisplace := @remains_displace P id intent hp _ hb
        rw [hb] at hend hdisplace
        exact hdisplace.andThen fun _ => hend
      | directory => exact absurd hb hbefore
      | deleted => exact absurd hb hshown
  refine (remains_openRecovery hp).andThen fun _ => hcreate.andThen fun _ =>
    (remains_look (fun _ h => h.seen) fun _ => rfl).andThen fun _ => ?_
  obtain ⟨path, before, after⟩ := intent
  cases after with
  | file hash => exact (remains_stageIncoming hp rfl object).andThen fun _ => hrest
  | directory => exact absurd rfl hafter
  | deleted => exact Triple.conseq hrest (fun _ h => ⟨h, fun _ he => by cases he⟩) fun _ _ h => h

/-! ### Applying -/

/-- A directory on the way that is made does not show. -/
theorem remains_ensureParents :
    Remains (Seen P id intent) (Shows P intent intent.before) (Root.ensureParents (filePath intent.path) : Io Files Unit)
      fun _ => Shows P intent intent.before :=
  ((tries_ensureParents _).triple (alone_stable _) (fun _ h => .inl h) fun fs fs' hs => by
    rintro ⟨q, _, ⟨-, hne, -⟩, hadds, hdir, rfl⟩
    exact ⟨trivial, contentOf_parents hadds hdir hne hs⟩).conseq (fun _ h => h) fun r fs h => by
      rcases r with e | a
      · exact .inl h
      · exact h.1

theorem content_ne_deleted {p : FilePath} : contentOf P fs p ≠ .ok (some .deleted) := by
  rw [contentOf]
  rcases fs.lookup p with e | n
  · cases e <;> simp
  · cases n <;> simp
    split <;> simp

/-- **What is seen while `apply` runs.** -/
theorem remains_apply (hpath : validatePath intent.path = .ok ()) (object : Option (Result Bytes)) :
    Remains (Seen P id intent) (Shows P intent intent.before)
      (Root.apply P id intent.path intent.before intent.after (object.map Fallible.ofExcept))
      fun _ => Seen P id intent := by
  have hseen : ∀ fs, Shows P intent intent.before fs → Seen P id intent fs := fun _ h => .inl h
  have hafterSeen : ∀ fs, Shows P intent intent.after.visible fs → Seen P id intent fs := fun _ h => .inr (.inl h)
  have hp := recovery_outside hpath
  have hread : Remains (Seen P id intent) (Shows P intent intent.before) (Root.content P intent.path)
      fun current fs => Shows P intent intent.before fs ∧ current = intent.before :=
    (remains_looks hseen (looks_content P _)).conseq (fun _ h => h) fun r fs h => by
      rcases r with e | current
      · exact h
      · refine ⟨h.1, ?_⟩
        have hrun := h.2
        rw [run_content hpath, h.1] at hrun
        exact (Except.ok.inj (Prod.mk.inj hrun).1).symm
  refine Remains.andThen (remains_ofExcept hseen fun _ _ _ h => h) fun _ => hread.andThen fun current => Triple.fact ?_
  rintro rfl
  split
  · exact remains_ofExcept hseen fun _ fs _ h => hseen fs h
  rename_i hsame
  refine Remains.andThen (remains_ofExcept hseen fun _ _ _ h => h) fun _ => remains_ensureParents.andThen fun _ => ?_
  split
  · rename_i hdir
    refine Remains.andThen (remains_ofExcept hseen fun _ _ _ h => h) fun _ => Remains.andThen (remains_call hseen
      (fun _ => hafterSeen) (fun fs _ _ hok => ?_) fun fs e h he => ?_) fun _ =>
      Triple.conseq (remains_look hafterSeen fun _ => rfl) (fun _ h => h) fun r fs h => ?_
    · rw [Shows, hdir]
      exact contentOf_dir (Files.place_ok hok (filePath_ne_nil _))
    · rw [Files.createDir, Files.place_error he]
      exact hseen fs h
    · rcases r with e | a
      · exact h
      · exact hafterSeen fs h
  · rename_i hdir
    split
    · rename_i hbefore
      refine Remains.andThen (M := fun _ fs => Shows P intent intent.before fs ∧ intent.after = .deleted)
        (remains_ofExcept hseen fun _ _ hok h => ⟨h, ensure_eq_ok.mp hok⟩) fun _ => Remains.andThen (remains_call
        (fun fs h => hseen fs h.1) (fun _ => hafterSeen) (fun fs _ h hok => ?_) fun fs e h he => ?_) fun _ =>
        Triple.conseq (remains_look hafterSeen fun _ => rfl) (fun _ h => h) fun r fs h => ?_
      · obtain ⟨hnode, hrest⟩ := Files.removeDir_ok hok (filePath_ne_nil _)
        rw [Shows, h.2]
        refine contentOf_none.mpr (Files.lookup_notFound.mpr ⟨(hrest _).trans (if_pos rfl), fun q hq hne => .inr ?_⟩)
        rw [hrest, if_neg hne]
        exact fs.node_of_prefix (by rw [hnode]; simp) hq hne
      · rw [Files.removeDir_error he]
        exact hseen fs h.1
      · rcases r with e | a
        · exact h
        · exact hafterSeen fs h
    · rename_i hbefore
      by_cases hdel : intent.before = some .deleted
      · intro fs hs
        rw [Shows, hdel] at hs
        exact absurd hs content_ne_deleted
      · exact Triple.conseq (remains_transact hpath hbefore hdir hdel object) (fun _ h => h) fun r fs h => by
          rcases r with e | a
          · exact h
          · exact hafterSeen fs h

end seen

/-! ### Recovering -/

section recovering

variable {P : Platform} {id : String} {intent : Root.Intent} {fs fs' : Files} {α β : Type}

variable (P id intent) in
/-- The journal is in order, and the path shows what it may show. -/
def Sound (fs : Files) : Prop := Journal id intent.toJson.render fs ∧ Seen P id intent fs

/-- Where there is nothing to recover, nothing is put aside. -/
theorem Recorded.not_quiet (h : Recorded id intent fs) : ¬ Quiet fs := by
  intro hq
  obtain ⟨i, hi, hb⟩ := h.record
  rcases hq.settled id h.transaction with hd | hr | ⟨i', j, hi', -, hj, hrec⟩
  · exact hd h.done
  · rw [hi] at hr
    cases hr
  · obtain rfl : i = i' := by simpa [Files.opened_file hi] using hi'
    rw [hb, Json.parse_render intent.depth_toJson, Option.some.injEq] at hj
    rw [← hj, isReceivers_toJson] at hrec
    cases hrec

/-- Only the transaction in question is found to be under way, and only when its record is whole. -/
theorem inspected (hlen : intent.toJson.render.length ≤ 64 * 1024) {id' : String} {found : Root.Intent}
    (hj : Journal id intent.toJson.render fs) (h : Fallible.run (Root.inspect id') fs = (.ok (some found), fs)) :
    Working id (some intent.toJson.render) fs ∧ id' = id ∧ found = intent := by
  have ht : fs.node (Root.transaction id') = some .dir := by
    obtain ⟨⟨⟩, fs₁, hopen, -⟩ := Fallible.run_bind_eq_ok.mp h
    obtain ⟨hok, -⟩ := Prod.mk.inj hopen
    exact Files.openDir_ok (mapError_eq_ok.mp hok)
  have hns : ¬ Settled fs id' := fun hs => by
    rw [run_inspect_settled ht hs] at h
    cases h
  rcases hj with hq | ⟨b, hb, hw⟩
  · exact absurd (hq.settled id') hns
  · obtain rfl : id' = id := by
      by_contra hne
      exact hns (hw.others id' hne)
    by_cases hwhole : b = intent.toJson.render
    · subst hwhole
      rw [run_inspect_whole hw hlen] at h
      cases h
      exact ⟨hw, rfl, rfl⟩
    · rw [run_inspect_torn hw hlen hb hwhole] at h
      cases h

/-- Finishing leaves what is shown. -/
theorem sound_finishRecord (hp : ¬ recovery <+: filePath intent.path) {c : Option Content}
    (hc : ∀ fs, Shows P intent c fs → Seen P id intent fs) :
    Remains (Sound P id intent) (fun fs => Working id (some intent.toJson.render) fs ∧ Shows P intent c fs)
      (Root.finishRecord id : Io Files Unit) fun _ => Sound P id intent := by
  have hwork : ∀ fs, Working id (some intent.toJson.render) fs ∧ Shows P intent c fs → Sound P id intent fs :=
    fun fs h => ⟨.inr ⟨_, List.prefix_rfl, h.1⟩, hc fs h.2⟩
  have hquiet : ∀ fs, Quiet fs ∧ Shows P intent c fs → Sound P id intent fs := fun fs h => ⟨.inl h.1, hc fs h.2⟩
  have hleaves : ∀ {x : String} {fs fs' : Files}, Files.Adds (Root.transaction id ++ [x]) fs fs' →
      Files.Leaves (filePath intent.path) fs fs' :=
    fun h => h.leaves fun hq => hp ((recovery_prefix_transaction id _).trans hq)
  have hcreate : Remains (Sound P id intent) (fun fs => Working id (some intent.toJson.render) fs ∧ Shows P intent c fs)
      (call (Files.createNew (Root.done id))) fun _ fs => Quiet fs ∧ Shows P intent c fs := by
    refine remains_call hwork (fun _ => hquiet) (fun fs _ h hok => ⟨h.1.createDone hok, h.2.inside (hleaves
      (Files.adds_createNew (p := Root.done id)))⟩) fun fs e h he => ?_
    rw [Files.createNew_error he]
    exact hwork fs h
  have hremove : Remains (Sound P id intent) (fun fs => Quiet fs ∧ Shows P intent c fs)
      (call (Files.removeFile (Root.incoming id))) fun _ fs => Quiet fs ∧ Shows P intent c fs :=
    remains_keeping hquiet fun fs h => ⟨h.1.agrees agrees_removeIncoming,
      h.2.inside (Files.leaves_removeFile fun hq => hp ((recovery_prefix_transaction id _).trans hq))⟩
  have hsync : Remains (Sound P id intent) (fun fs => Quiet fs ∧ Shows P intent c fs)
      (sync (Root.transaction id) : Io Files Unit) fun _ => Sound P id intent :=
    Triple.conseq (remains_look hquiet fun _ => rfl) (fun _ h => h) fun r fs h => by
      rcases r with e | a
      · exact h
      · exact hquiet fs h
  refine hcreate.andThen fun _ => Remains.andThen (remains_attempt (Q := fun _ fs => Quiet fs ∧ Shows P intent c fs)
    hquiet (fun _ => hquiet) fun _ h => h) fun r => ?_
  split
  · exact hremove.andThen fun _ => hsync
  · exact hsync

theorem visible_eq {c : Content} {actual : Option Content} (h : actual = some c ∨ actual = none ∧ c = .deleted)
    (hne : actual ≠ some .deleted) : actual = c.visible := by
  rcases h with rfl | ⟨rfl, rfl⟩
  · cases c with
    | deleted => exact absurd rfl hne
    | file _ => rfl
    | directory => rfl
  · rfl

/-- Settling the transaction. -/
theorem sound_settle (hpath : validatePath intent.path = .ok ()) :
    Remains (Sound P id intent) (fun fs => Sound P id intent fs ∧ Working id (some intent.toJson.render) fs)
      (Root.settle P id intent) fun _ => Sound P id intent := by
  have hp := recovery_outside hpath
  refine Remains.andThen (remains_ofExcept (fun _ h => h.1) fun _ _ _ h => h) fun _ =>
    (remains_looks (fun _ h => h.1) (looks_content P _)).andThen fun actual => ?_
  split
  · rename_i hknown
    refine Triple.conseq (P := fun fs => (Working id (some intent.toJson.render) fs ∧ Shows P intent actual fs) ∧
      (actual = intent.after.visible ∨ actual = intent.before)) (Triple.fact fun hc => ?_) (fun fs h => ?_) fun _ _ h => h
    · refine sound_finishRecord hp fun fs hs => ?_
      rcases hc with rfl | rfl
      · exact .inr (.inl hs)
      · exact .inl hs
    · obtain ⟨⟨-, hw⟩, hrun⟩ := h
      rw [run_content hpath, Prod.mk.injEq] at hrun
      refine ⟨⟨hw, hrun.1⟩, ?_⟩
      rcases hknown with h | h | h
      · exact .inl (visible_eq (.inl h) fun hd => content_ne_deleted (hrun.1.trans (by rw [hd])))
      · exact .inl (visible_eq (.inr h) (by rw [h.1]; simp))
      · exact .inr h
  · rename_i hother
    split
    · rename_i hnone
      have hsound : ∀ fs, Displaced P id intent fs ∧ Working id (some intent.toJson.render) fs → Sound P id intent fs :=
        fun fs h => ⟨.inr ⟨_, List.prefix_rfl, h.2⟩, .inr (.inr h.1)⟩
      have hback : ∀ fs, Working id (some intent.toJson.render) fs ∧ Shows P intent intent.before fs →
          Sound P id intent fs := fun fs h => ⟨.inr ⟨_, List.prefix_rfl, h.1⟩, .inl h.2⟩
      refine Triple.conseq (P := fun fs => Displaced P id intent fs ∧ Working id (some intent.toJson.render) fs)
        (Remains.andThen (remains_attempt (Q := fun _ fs => Displaced P id intent fs ∧
          Working id (some intent.toJson.render) fs) hsound (fun _ => hsound) fun _ h => h) fun r => ?_)
        (fun fs h => ?_) fun _ _ h => h
      · split
        · have hlink : Remains (Sound P id intent)
              (fun fs => Displaced P id intent fs ∧ Working id (some intent.toJson.render) fs)
              (call (Files.link (Root.previous id) (filePath intent.path)))
              fun _ fs => Working id (some intent.toJson.render) fs ∧ Shows P intent intent.before fs := by
            refine remains_call hsound (fun _ => hback) (fun fs _ h hok => ?_) fun fs e h he => ?_
            · obtain ⟨i, hi, hsize, hb⟩ := h.1.previous
              refine ⟨h.2.agrees (agrees_adds_visible Files.adds_link hp), ?_⟩
              rw [Shows, link_ok (filePath_ne_nil _) hok, contentOf_file hi hsize, hb]
            · rw [link_error he]
              exact hsound fs h
          exact hlink.andThen fun _ => (remains_look hback fun _ => rfl).andThen fun _ =>
            sound_finishRecord hp fun _ hs => .inl hs
        · exact remains_fail hsound
      · obtain ⟨⟨⟨-, hseen⟩, hw⟩, hrun⟩ := h
        rw [run_content hpath, Prod.mk.injEq, hnone] at hrun
        refine ⟨?_, hw⟩
        rcases hseen with hs | hs | hs
        · rw [Shows, hrun.1, Except.ok.injEq] at hs
          exact absurd (.inr (.inr (hnone.trans hs))) hother
        · rw [Shows, hrun.1, Except.ok.injEq] at hs
          have hdel : intent.after = .deleted := by
            cases hc : intent.after with
            | deleted => rfl
            | file _ => rw [hc] at hs; cases hs
            | directory => rw [hc] at hs; cases hs
          exact absurd (.inr (.inl ⟨hnone, hdel⟩)) hother
        · exact hs
    · exact remains_fail fun _ h => h.1.1

/-- One transaction, whichever it is. -/
theorem sound_recoverOne (hlen : intent.toJson.render.length ≤ 64 * 1024) (hpath : validatePath intent.path = .ok ())
    (id' : String) :
    Remains (Sound P id intent) (Sound P id intent) (Root.recoverOne P id') fun _ => Sound P id intent := by
  refine Remains.andThen (remains_looks (fun _ h => h) (looks_inspect id')) fun found => ?_
  cases found with
  | none => exact remains_ofExcept (fun _ h => h.1) fun _ _ _ h => h.1
  | some found =>
    intro fs h
    obtain ⟨hw, rfl, rfl⟩ := inspected hlen h.1.1 h.2
    exact sound_settle hpath fs ⟨h.1, hw⟩

/-- **What is seen while `recover` runs.** -/
theorem sound_recover (hlen : intent.toJson.render.length ≤ 64 * 1024) (hpath : validatePath intent.path = .ok ()) :
    Remains (Sound P id intent) (Sound P id intent) (Root.recover P) fun _ => Sound P id intent := by
  have hforM : ∀ l : List (String × Node),
      Remains (Sound P id intent) (Sound P id intent) (l.forM (recoverItem P)) fun _ => Sound P id intent := by
    intro l
    induction l with
    | nil => exact remains_pure fun _ h => h
    | cons item l ih =>
      refine Remains.andThen (?_ : Remains _ _ (recoverItem P item) _) fun _ => ih
      rw [recoverItem]
      split_ifs
      · exact sound_recoverOne hlen hpath _
      · exact remains_pure fun _ h => h
  refine Remains.andThen (remains_attempt (Q := fun _ => Sound P id intent) (fun _ h => h) (fun _ _ h => h)
    fun _ h => h) fun r => ?_
  split
  · exact remains_pure fun _ h => h
  · exact remains_fail fun _ h => h
  · exact (remains_look (fun _ h => h) fun _ => rfl).andThen hforM

end recovering

/-! ### The main theorem -/

/-- The crash cut the record short. -/
def Torn (id : String) (intent : Root.Intent) (fs : Files) : Prop :=
  fs.node (Root.done id) = none ∧ ∃ i, fs.node (Root.record id) = some (.file i) ∧
    (fs.inode i).bytes <+: intent.toJson.render ∧ (fs.inode i).bytes ≠ intent.toJson.render

section

variable {P : Platform} {id : String} {intent : Root.Intent} {fs : Files}

theorem Sound.recoverable (h : Sound P id intent fs) : Recoverable P id intent fs := by
  rcases h.2 with hs | hs | hs
  · exact ⟨_, hs, .inr (.inr (.inl rfl))⟩
  · refine ⟨_, hs, ?_⟩
    cases hc : intent.after with
    | deleted => exact .inr (.inl ⟨rfl, rfl⟩)
    | file _ => exact .inl rfl
    | directory => exact .inl rfl
  · obtain ⟨i, hi, -⟩ := hs.previous
    have hlast := List.dropLast_append_getLast (filePath_ne_nil intent.path)
    have habsent : fs.lookup (filePath intent.path) = .error .notFound := by
      rw [← hlast]
      exact Files.lookup_absent hs.parent (by rw [hlast]; exact hs.absent)
    exact ⟨none, contentOf_none.mpr habsent, .inr (.inr (.inr ⟨rfl, ⟨.file i, by simp, hi⟩, hs.parent⟩))⟩

theorem Quiet.not_torn (h : Quiet fs) : ¬ Torn id intent fs := by
  rintro ⟨hdone, i, hi, ⟨rest, hrest⟩, hne⟩
  have ht : fs.node (Root.transaction id) = some .dir := fs.parent _ "record.json" (by rw [← Root.record, hi]; simp)
  rcases h.settled id ht with hd | hr | ⟨i', j, hi', -, hj, -⟩
  · exact hd hdone
  · rw [hi] at hr
    cases hr
  · obtain rfl : i = i' := by simpa [Files.opened_file hi] using hi'
    rw [Root.Intent.toJson] at hrest
    rw [Json.parse_truncated hrest] at hj
    · cases hj
    · rintro rfl
      exact hne (by rw [Root.Intent.toJson, ← hrest, List.append_nil])

theorem Working.torn_iff {b : Bytes} (h : Working id (some b) fs) (hb : b <+: intent.toJson.render) :
    Torn id intent fs ↔ b ≠ intent.toJson.render := by
  obtain ⟨i, hbytes, hi, -⟩ := h.record.resolve_left (by rintro ⟨h, -⟩; cases h)
  obtain rfl := Option.some.inj hbytes
  constructor
  · rintro ⟨-, i', hi', -, hne⟩
    obtain rfl : i = i' := by simpa [hi] using hi'
    exact hne
  · exact fun hne => ⟨h.done, i, hi, hb, hne⟩

end

/-- **A crash is undone or completed, unless it cut the record short.** The path holds `before`, there is nothing
to recover, and nobody else acts. Let `apply`, and after it any number of recoveries, be stopped anywhere. Then the
next `recover` succeeds, leaves the path with the content before or the content after, and has nothing left to do,
exactly when the crash did not leave a part of the record. -/
theorem apply_crash_atomic (P : Platform) (hlen : ∀ bytes, (P.blake3 bytes).utf8ByteSize = 64) (id path : String)
    (before : Option Content) (after : Content) (hafter : ∀ hash, after = .file hash → isHash hash = true)
    (object : Option (Result Bytes)) (hpath : validatePath path = .ok ()) (fs : Files)
    (hbefore : contentOf P fs (filePath path) = .ok before)
    (hstart : Fallible.run (Root.recover P) fs = (.ok (), fs)) (q : Io Files Unit) (s : Files)
    (hrun : Prog.Life (fun _ _ => False) (fun fs => fs) (fun _ r => r = Root.recover P)
      (Root.apply P id path before after (object.map Fallible.ofExcept)) fs q s) :
    (∃ s', Fallible.run (Root.recover P) s = (.ok (), s') ∧
        (contentOf P s' (filePath path) = .ok before ∨ contentOf P s' (filePath path) = .ok after.visible) ∧
        Fallible.run (Root.recover P) s' = (.ok (), s')) ↔
      ¬ Torn id ⟨path, before, after⟩ s := by
  have hshort : (Root.Intent.toJson ⟨path, before, after⟩).render.length ≤ 64 * 1024 := by
    refine @length_render_toJson ⟨path, before, after⟩ hpath (fun hash hb => ?_) fun hash ha => ?_
    · obtain ⟨i, -, -, rfl⟩ := node_of_contentOf (hbefore.trans (congrArg Except.ok hb))
      exact hlen _
    · have := hafter hash ha
      simp only [isHash, Bool.and_eq_true, decide_eq_true_eq] at this
      exact this.1
  have hsound : Sound P id ⟨path, before, after⟩ s := by
    refine (Meets.life (C := alone (Sound P id ⟨path, before, after⟩)) (fun t r ht hr => ?_) ?_ hrun).inv
    · rw [hr]
      exact (sound_recover hshort hpath t ht).mono fun _ _ _ => trivial
    · exact ((@triple_apply _ _ ⟨path, before, after⟩ hpath object fs (run_recover_eq_iff.mp hstart)).and_alone
        (@remains_apply _ _ ⟨path, before, after⟩ hpath object fs hbefore)).mono fun _ _ _ => trivial
  have hshown : ∀ {t}, Sound P id ⟨path, before, after⟩ t → Quiet t →
      contentOf P t (filePath path) = .ok before ∨ contentOf P t (filePath path) = .ok after.visible := by
    rintro t ⟨-, hs | hs | hs⟩ hq
    · exact .inl hs
    · exact .inr hs
    · exact absurd hq hs.recorded.not_quiet
  rcases hsound.1 with hq | ⟨b, hb, hw⟩
  · refine iff_of_true ⟨s, run_recover_quiet hq, hshown hsound hq, run_recover_quiet hq⟩ hq.not_torn
  · rw [hw.torn_iff hb, not_not]
    constructor
    · rintro ⟨s', hrec, -⟩
      by_contra hne
      have hfail := (run_recover_working (P := P) hw).1
      rw [hrec, Root.recoverOne, run_bind_error (run_inspect_torn hw hshort hb hne)] at hfail
      cases hfail
    · rintro rfl
      have hok : (Fallible.run (Root.recover P) s).1 = .ok () := by
        rw [(run_recover_working hw).1, Root.recoverOne, run_bind_ok (run_inspect_whole hw hshort)]
        exact (run_settle hw hpath).mpr hsound.recoverable
      have hpost := (sound_recover hshort hpath s hsound).run
      have hrun' : Fallible.run (Root.recover P) s = (.ok (), (Fallible.run (Root.recover P) s).2) := Prod.ext hok rfl
      have hquiet := quiet_of_recover hrun'
      refine ⟨_, hrun', hshown ?_ hquiet, run_recover_quiet hquiet⟩
      change outcome _ _ (Fallible.run (Root.recover P) s).1 (Fallible.run (Root.recover P) s).2 at hpost
      rw [hok] at hpost
      exact hpost

/-- A file is replaced, and the crash comes when the old file is put aside and the new one has no name yet. -/
theorem apply_crash_atomic_displaced :
    let fs := (Files.empty.setInode 0 ⟨[1, 2, 3], 0⟩).add ["a"] (.file 0)
    let before := some (Content.file (Platform.padded.blake3 [1, 2, 3]))
    let after := Content.file (Platform.padded.blake3 [4])
    let apply : Io Files Unit := Root.apply .padded "id" "a" before after
      ((some (.ok [4]) : Option (Result Bytes)).map Fallible.ofExcept)
    let s := (apply.runFor 236 fs).2
    (s.node ["a"] = none ∧ s.node (Root.previous "id") = some (.file 0)) ∧
      ((∃ s', Fallible.run (Root.recover .padded) s = (.ok (), s') ∧
        (contentOf .padded s' ["a"] = .ok before ∨ contentOf .padded s' ["a"] = .ok after.visible) ∧
        Fallible.run (Root.recover .padded) s' = (.ok (), s')) ↔ ¬ Torn "id" ⟨"a", before, after⟩ s) := by
  intro fs before after apply s
  refine ⟨by decide +kernel, apply_crash_atomic .padded Platform.padded_length "id" "a" before after (fun hash h => ?_)
    (some (.ok [4])) (by decide +kernel) fs (by decide +kernel) (run_recover_quiet ⟨.inl rfl, fun id ht => by cases ht⟩)
    (apply.runFor 236 fs).1 s (.of_reaches (Prog.reaches_runFor _ _ _ _))⟩
  obtain rfl : Platform.padded.blake3 [4] = hash := Content.file.inj h
  decide +kernel

/-- A file is to be deleted, and the crash comes when the record was created and nothing is written to it: every
`recover` fails. -/
theorem apply_crash_torn :
    let fs := (Files.empty.setInode 0 ⟨[1, 2, 3], 0⟩).add ["a"] (.file 0)
    let before := some (Content.file (Platform.padded.blake3 [1, 2, 3]))
    let apply : Io Files Unit := Root.apply .padded "id" "a" before .deleted
      ((none : Option (Result Bytes)).map Fallible.ofExcept)
    ∃ q s, Prog.Life (fun _ _ => False) (fun fs => fs) (fun _ r => r = Root.recover .padded) apply fs q s ∧
      contentOf .padded fs ["a"] = .ok before ∧ Fallible.run (Root.recover .padded) fs = (.ok (), fs) ∧
      (Fallible.run (Root.recover .padded) s).1 = .error .json :=
  ⟨_, _, .of_reaches (Prog.reaches_runFor _ 12 _ _), by decide +kernel,
    run_recover_quiet ⟨.inl rfl, fun id ht => by cases ht⟩, by decide +kernel⟩

end Everywhere
