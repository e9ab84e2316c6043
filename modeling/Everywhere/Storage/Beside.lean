import Everywhere.Folder.Recovery
import Everywhere.Folder.Calls
import Everywhere.Share.Program

/-!
# Two journals in one directory

The receiver of single files keeps its records in the directory in which a folder keeps its own, and never marks
them as done. `Root.recover` tells them apart by their members, after it has read them, and it reads
records of at most 64 KiB. A record of the receiver names two files by the hashes of all their blocks.

* `recover_beside_install_iff` — with the record of an install on the disk, `recover` succeeds and changes
  nothing **exactly when** the record is at most 64 KiB long.
* `recover_beside_install_long` — beside the record of a file of a gibibyte, `recover` fails.
-/

open Relation (ReflTransGen)

namespace Everywhere

open Library

/-! ### The record -/

theorem isReceivers_installRecord (name : String) (intent : InstallIntent) :
    Root.isReceivers (installRecord name intent) = true := by
  simp [Root.isReceivers, installRecord, Json.get, List.lookup]

/-- A manifest is written with all its blocks. -/
theorem length_toValue {m : Manifest} (h : m.validate = .ok ()) : 66 * m.blocks.length ≤ m.toValue.render.length := by
  have hblock : ∀ j ∈ m.blocks.map Json.str, 66 ≤ j.render.length := by
    intro j hj
    obtain ⟨b, hb, rfl⟩ := List.mem_map.mp hj
    exact (length_quoted_of_isHash ((Manifest.validate_eq_ok.mp h).2.2.2 b hb)).ge
  have := Json.length_le_length_renderItems hblock
  rw [List.length_map] at this
  simp only [Manifest.toValue, Json.render, Json.renderMembers, List.length_cons, List.length_append]
  omega

/-- The record of an install grows with the files. -/
theorem length_installRecord {id name : String} {original incoming : Manifest} (ho : original.validate = .ok ())
    (hi : incoming.validate = .ok ()) :
    66 * (original.blocks.length + incoming.blocks.length) ≤ (installRecord name ⟨id, original, incoming⟩).render.length := by
  have ho := length_toValue ho
  have hi := length_toValue hi
  simp only [installRecord, InstallIntent.toValue, Json.render, Json.renderMembers, List.length_cons,
    List.length_append]
  omega

section install

variable {id name : String} {part intentPath : FilePath} {original incoming : Manifest} {fs fs' : Files}

/-- The text of the record. -/
def recordText (id name : String) (original incoming : Manifest) : Bytes :=
  (installRecord name ⟨id, original, incoming⟩).render

/-- The steps of an install put the mark of a finished transaction nowhere. -/
def Unmarked (fs fs' : Files) : Prop :=
  ∀ id', fs.node (Root.done id') = none → fs'.node (Root.done id') = none

theorem unmarked_adds {q : FilePath} (h : Files.Adds q fs fs') (hq : ∀ id', q ≠ Root.done id') : Unmarked fs fs' :=
  fun id' hd => ((h.1 _).resolve_right fun he => hq id' he.1.symm).trans hd

theorem tries_unmarked_look {α : Type} {op : Files → Files.Outcome α} (h : ∀ fs, (op fs).2 = fs) :
    Tries Unmarked (fun _ => True) (call op : Io Files α) :=
  Tries.act fun fs id' hd => by
    change (op fs).2.node _ = none
    rwa [h]

theorem tries_unmarked_writeAll (file : ℕ) (bytes : Bytes) :
    Tries Unmarked (fun _ => True) (writeAll file bytes : Io Files Unit) :=
  Tries.forM fun _ _ => Tries.act fun _ _ hd => hd

theorem unmarked_rename (name : String) : Unmarked fs (fs.rename [name] (Root.previous id)).2 := by
  intro id' hd
  by_cases hp : recovery <+: [name]
  · have hself : [name] <+: Root.previous id := by
      rw [← hp.eq_of_length rfl]
      exact recovery_prefix_transaction id ["previous"]
    rcases Files.rename_cases [name] (Root.previous id) fs with h | h
    · rwa [h]
    · exact absurd hself h.2.1
  · rwa [(agrees_rename hp (by simp)).done]

/-- The install leaves no mark. -/
theorem tries_unmarked (hintent : ¬ recovery <+: intentPath) :
    Tries Unmarked (fun _ => True) (prepareInstall id [name] part intentPath original incoming : Io Files FilePath) := by
  have hmake : ∀ {α : Type} {op : Files → Files.Outcome α} {q : FilePath}, (∀ id', q ≠ Root.done id') →
      (∀ fs, Files.Adds q fs (op fs).2) → Tries Unmarked (fun _ => True) (call op : Io Files α) :=
    fun hq h => Tries.act fun fs => unmarked_adds (h fs) hq
  have hinside : ∀ x : String, x ≠ "done" → ∀ id', recovery ++ [id] ++ [x] ≠ Root.done id' := by
    intro x hx id' he
    exact hx (by simpa [Root.done, Root.transaction] using (List.append_inj' he rfl).2)
  have hvisible : ∀ id', intentPath ≠ Root.done id' := by
    rintro id' rfl
    exact hintent (recovery_prefix_transaction id' ["done"])
  have hdir : Tries Unmarked (fun path => path = recovery)
      (privateDirectory [] ".everywhere-recovery" : Io Files FilePath) := by
    have hrest : Tries Unmarked (fun path => path = recovery) (do
        let kind ← call (Files.metadata recovery)
        ensure (kind = .dir) "unsafe private history directory"
        sync recovery
        pure recovery : Io Files FilePath) :=
      (tries_unmarked_look fun _ => rfl).andThen fun _ _ => (Tries.ofExcept fun _ _ => trivial).andThen fun _ _ =>
        (tries_unmarked_look fun _ => rfl).andThen fun _ _ => Tries.ofExcept fun _ h => (Except.ok.inj h).symm
    have hcreate : Tries Unmarked (fun _ => True) (call (Files.createDir recovery) : Io Files Unit) :=
      hmake (by simp [Root.done, Root.transaction, recovery]) fun _ => Files.adds_createDir
    refine hcreate.attempt.andThen fun r _ => ?_
    split
    · exact (tries_unmarked_look fun _ => rfl).andThen fun _ _ => hrest
    · exact hrest
    · exact (Tries.fail (V := fun _ => True)).andThen fun _ _ => hrest
  refine hdir.andThen ?_
  rintro _ rfl
  refine (hmake (q := recovery ++ [id]) (by simp [Root.done, Root.transaction]) fun _ => Files.adds_createDir).andThen fun _ _ => ?_
  refine (hmake (hinside "incoming" (by decide)) fun _ => Files.adds_link).andThen fun _ _ => ?_
  refine (hmake (hinside "record.json" (by decide)) fun _ => Files.adds_createNew).andThen fun record _ => ?_
  refine (tries_unmarked_writeAll _ _).andThen fun _ _ => (tries_unmarked_look fun _ => rfl).andThen fun _ _ =>
    (tries_unmarked_look fun _ => rfl).andThen fun _ _ => ?_
  refine (hmake hvisible fun _ => Files.adds_createNew).andThen fun file _ => ?_
  refine (tries_unmarked_writeAll _ _).andThen fun _ _ => (tries_unmarked_look fun _ => rfl).andThen fun _ _ => ?_
  have hrename : Tries Unmarked (fun _ => True) (call (Files.rename [name] (Root.previous id)) : Io Files Unit) :=
    Tries.act fun fs => unmarked_rename name
  exact hrename.andThen fun _ _ => (tries_unmarked_look fun _ => rfl).andThen fun _ _ =>
    (tries_unmarked_look fun _ => rfl).andThen fun _ _ => Tries.ofExcept fun _ _ => trivial

/-- **The install keeps the journal.** -/
theorem triple_prepareInstall (hintent : ¬ recovery <+: intentPath) :
    Triple (journaling id (recordText id name original incoming)) Quiet
      (prepareInstall id [name] part intentPath original incoming)
      fun _ => Journal id (recordText id name original incoming) := by
  let text := recordText id name original incoming
  let J := Journal id text
  have hquiet : ∀ {α : Type} {x : Io Files α}, Stays id text Quiet x →
      Triple (journaling id text) Quiet x (outcome (fun _ => Quiet) fun _ => J) :=
    fun h => h.conseq (fun _ h => h) fun r fs h => by
      rcases r with e | a
      · exact .inl h
      · exact h
  have hdir : Triple (journaling id text) Quiet (privateDirectory [] ".everywhere-recovery" : Io Files FilePath)
      (outcome (fun path fs => Quiet fs ∧ path = recovery) fun _ => J) := by
    have hend : Triple (journaling id text) Quiet (pure recovery : Io Files FilePath)
        (outcome (fun path fs => Quiet fs ∧ path = recovery) fun _ => J) :=
      Triple.ofExcept phase_quiet.stable phase_quiet.journal fun _ h => ⟨h, rfl⟩
    have hrest : Triple (journaling id text) Quiet (do
        let kind ← call (Files.metadata recovery)
        ensure (kind = .dir) "unsafe private history directory"
        sync recovery
        pure recovery : Io Files FilePath) (outcome (fun path fs => Quiet fs ∧ path = recovery) fun _ => J) :=
      Triple.andThen (hquiet (stays_look phase_quiet fun _ => rfl)) fun _ =>
        Triple.andThen (hquiet (stays_ofExcept phase_quiet _)) fun _ =>
          Triple.andThen (hquiet (stays_sync phase_quiet _)) fun _ => hend
    refine Triple.andThen (hquiet stays_createRecovery.attempt) fun r => ?_
    split
    · exact Triple.andThen (hquiet (stays_sync phase_quiet _)) fun _ => hrest
    · exact hrest
    · exact Triple.andThen (hquiet (stays_fail phase_quiet _)) fun _ => hrest
  have hwork : Phase id text (Working id none) := phase_working_none
  have hrec : Phase id text (Working id (some text)) := phase_working List.prefix_rfl
  have hJ : ∀ fs, Working id none fs → J fs := fun fs h => .inl h.quiet
  have hJ' : ∀ fs, Working id (some text) fs → J fs := fun fs h => .inr ⟨text, List.prefix_rfl, h⟩
  have herr : ∀ {α : Type} {X : Files → Prop} {Y : α → Files → Prop} {Z : Files → Prop} {x : Io Files α},
      Triple (journaling id text) X x (outcome Y fun _ => Z) → (∀ fs, Z fs → J fs) →
      Triple (journaling id text) X x (outcome Y fun _ => J) :=
    fun h hZ => h.conseq (fun _ h => h) fun r fs h => by
      rcases r with e | a
      · exact hZ fs h
      · exact h
  have hlink : Stays id text (Working id none) (call (Files.link part (Root.incoming id))) := by
    refine stays_call hwork fun fs hw => adds_staging Files.adds_link fun hd => ?_
    rcases @Files.node_link fs part (Root.incoming id) with h | ⟨n, hn, -, h⟩
    · exact hw.incoming (h.symm.trans hd)
    · rw [h] at hd
      exact hn (Option.some.inj hd)
  have hwrite : ∀ file, Triple (journaling id text) (Recording id file []) (writeAll file text : Io Files Unit)
      (outcome (fun _ => Working id (some text)) fun _ => J) :=
    fun file => (triple_writeRecording (List.nil_append _)).conseq (fun _ h => h) fun r fs h => by
      rcases r with e | a
      · exact hJ' fs h.1
      · exact h.1
  -- the intent's file is none of the records
  have hintentFile : Triple (journaling id text) (Working id (some text)) (call (Files.createNew intentPath))
      (outcome (fun file fs => Working id (some text) fs ∧ ∀ id', fs.opened (Root.record id') ≠ some file)
        fun _ => J) := by
    have hphase : ∀ file, Phase id text
        fun fs => Working id (some text) fs ∧ ∀ id', fs.opened (Root.record id') ≠ some file := fun file =>
      ⟨fun _ _ h ha => ⟨h.1.agrees ha, fun id' => by rw [ha.opened]; exact h.2 id'⟩, fun fs h => hJ' fs h.1⟩
    refine herr (triple_phase hrec hphase hrec (fun fs file hw hok => ?_) fun fs e hw he => ?_) hJ'
    · have hagrees := agrees_adds_visible (@Files.adds_createNew fs _) hintent
      refine ⟨hw.agrees hagrees, fun id' => ?_⟩
      rw [hagrees.opened, (Files.createNew_ok hok).1]
      exact fun hi => lt_irrefl _ (Files.opened_lt_fresh hi)
    · rwa [Files.createNew_error he]
  have hwriteIntent : ∀ (file : ℕ) (bytes : Bytes), Triple (journaling id text)
      (fun fs => Working id (some text) fs ∧ ∀ id', fs.opened (Root.record id') ≠ some file)
      (writeAll file bytes : Io Files Unit) (outcome (fun _ => Working id (some text)) fun _ => J) := by
    intro file bytes
    have hphase : Phase id text
        fun fs => Working id (some text) fs ∧ ∀ id', fs.opened (Root.record id') ≠ some file :=
      ⟨fun _ _ h ha => ⟨h.1.agrees ha, fun id' => by rw [ha.opened]; exact h.2 id'⟩, fun fs h => hJ' fs h.1⟩
    refine Triple.conseq (?_ : Stays id text _ _) (fun _ h => h) fun r fs h => by
      rcases r with e | a
      · exact hJ' fs h.1
      · exact h.1
    induction bytes with
    | nil => exact stays_pure hphase ()
    | cons b bytes ih =>
      refine Stays.andThen (stays_call hphase fun fs h => ?_) fun _ => ih
      refine ⟨rfl, fun _ => rfl, fun _ => rfl, fun _ => rfl, fun _ h => h, fun id' i hi => ?_⟩
      have hne : i ≠ file := by rintro rfl; exact h.2 id' hi
      simp [Files.append, Files.inode_setInode, Function.update_of_ne hne]
  have hrename : Stays id text (Working id (some text)) (call (Files.rename [name] (Root.previous id))) := by
    by_cases hp : recovery <+: [name]
    · refine stays_call hrec fun fs _ => ?_
      rcases Files.rename_cases [name] (Root.previous id) fs with h | h
      · rw [h]
        exact agrees_of_node (fun _ _ => rfl) rfl
      · refine absurd ?_ h.2.1
        rw [← hp.eq_of_length rfl]
        exact recovery_prefix_transaction id ["previous"]
    · exact stays_call hrec fun _ _ => agrees_rename hp (by simp)
  have hsync : ∀ d, Triple (journaling id text) (Working id (some text)) (sync d : Io Files Unit)
      (outcome (fun _ => Working id (some text)) fun _ => J) := fun d => herr (stays_sync hrec d) hJ'
  refine Triple.conseq (@Triple.andThen _ _ _ _ _ _ _ (fun _ => J) _ _ (fun _ => J) hdir fun path => Triple.fact ?_)
    (fun _ h => h) fun r fs h => by
      rcases r with e | a
      · exact h
      · exact h
  rintro rfl
  refine Triple.andThen (herr triple_beginTransaction fun _ h => .inl h) fun _ => ?_
  refine Triple.andThen (herr hlink hJ) fun _ => Triple.andThen (herr triple_createRecord hJ) fun record => ?_
  refine Triple.andThen (hwrite record) fun _ => Triple.andThen (hsync _) fun _ => Triple.andThen (hsync _) fun _ => ?_
  refine Triple.andThen hintentFile fun file => Triple.andThen (hwriteIntent file _) fun _ => ?_
  refine Triple.andThen (hsync _) fun _ => Triple.andThen (herr hrename hJ') fun _ => ?_
  refine Triple.andThen (hsync _) fun _ => Triple.andThen (hsync _) fun _ => ?_
  exact Triple.ofExcept hrec.stable hrec.journal fun fs h => hJ' fs h

/-! ### Recovering beside it -/

/-- What `recover` makes of the record. -/
theorem run_recover_beside (P : Platform) {i : ℕ} (hj : Journal id (recordText id name original incoming) fs)
    (hdone : fs.node (Root.done id) = none) (hi : fs.node (Root.record id) = some (.file i))
    (hb : (fs.inode i).bytes = recordText id name original incoming) :
    Fallible.run (Root.recover P) fs = if (recordText id name original incoming).length ≤ 64 * 1024 then (.ok (), fs)
      else (.error (.message "oversized recovery record"), fs) := by
  have ht : fs.node (Root.transaction id) = some .dir := fs.parent _ "record.json" (by rw [← Root.record, hi]; simp)
  have hparse : Json.parse (fs.inode i).bytes = some (installRecord name ⟨id, original, incoming⟩) := by
    rw [hb, recordText, Json.parse_render (depth_installRecord _ _)]
  split_ifs with hlen
  · have hsettled : Settled fs id := fun _ =>
      .inr (.inr ⟨i, _, Files.opened_file hi, by rw [hb]; exact hlen, hparse, isReceivers_installRecord _ _⟩)
    rcases hj with hq | ⟨b, -, hw⟩
    · exact run_recover_quiet hq
    · refine run_recover_quiet ⟨.inr hw.root, fun id' => ?_⟩
      by_cases hne : id' = id
      · exact hne ▸ hsettled
      · exact hw.others id' hne
  · rcases hj with hq | ⟨b, -, hw⟩
    · rcases hq.settled id ht with hd | hr | ⟨i', j, hi', hshort, -⟩
      · exact absurd hdone hd
      · rw [hi] at hr
        cases hr
      · obtain rfl : i = i' := by simpa [Files.opened_file hi] using hi'
        rw [hb] at hshort
        exact absurd hshort hlen
    · have hone : Fallible.run (Root.recoverOne P id) fs = (.error (.message "oversized recovery record"), fs) := by
        have hbytes : b = recordText id name original incoming := by
          obtain ⟨i', hb', hi', -⟩ := hw.record.resolve_left (by rintro ⟨h, -⟩; cases h)
          obtain rfl : i = i' := by simpa [hi] using hi'
          rw [Option.some.inj hb', hb]
        rw [Root.recoverOne, run_bind_error (run_inspect_oversized hw (by rw [hbytes]; exact hlen))]
      obtain ⟨h1, h2⟩ := run_recover_working (P := P) hw
      rw [hone] at h1 h2
      exact Prod.ext h1 h2

/-- The folder can be opened and scanned as far as the journal is concerned: a share of it that is what it was opens, and
a scan finds what it would find without the journal. -/
def Usable (P : Platform) (fs : Files) : Prop :=
  ∀ (β : Type) (s : Share β), s.files = fs → Fallible.run Share.checkRoot s = (.ok (), s) →
    (s.index.epoch = s.config.epoch → Fallible.run (Share.open_ P) s = (.ok (), s)) ∧
    ∀ approve, s.index.recoveryPending = false →
      Fallible.run (Share.scan P approve) s = Fallible.run (Share.scanVisible P approve) s

/-- No share of the folder can be opened or scanned. -/
def Unusable (P : Platform) (fs : Files) : Prop :=
  ∀ (β : Type) (s : Share β), s.files = fs → (Fallible.run (Share.open_ P) s).1 ≠ .ok () ∧
    ∀ approve r, (Fallible.run (Share.scan P approve) s).1 ≠ .ok r

/-- A larger state is as it was when its files are. -/
theorem run_recover_share {P : Platform} {β : Type} {s : Share β} {r : Result Unit}
    (h : Fallible.run (Root.recover P) s.files = (r, s.files)) : Fallible.run (Root.recover P) s = (r, s) := by
  rw [lifts_recover P s]
  change ((Fallible.run (Root.recover P) s.files).1, HasFiles.setFiles (Fallible.run (Root.recover P) s.files).2 s) = _
  rw [h]
  rfl

theorem usable_of_recover {P : Platform} {fs : Files} (h : Fallible.run (Root.recover P) fs = (.ok (), fs)) :
    Usable P fs := by
  rintro β s rfl hcheck
  have hrecover := run_recover_share h
  refine ⟨fun hepoch => ?_, fun approve hpending => ?_⟩
  · rw [Share.open_, Fallible.run_bind, Fallible.run_look]
    change Fallible.run (Fallible.ofExcept (ensure (s.index.epoch = s.config.epoch) _) >>= fun _ =>
      Share.checkRoot >>= fun _ => Root.recover P) s = _
    rw [Fallible.run_bind, show ensure _ _ = .ok () from ensure_eq_ok.mpr hepoch]
    change Fallible.run (Share.checkRoot >>= fun _ => Root.recover P) s = _
    rw [Fallible.run_bind, hcheck]
    exact hrecover
  · rw [Share.scan, Fallible.run_bind, Share.recoveryPending, Fallible.run_look]
    change Fallible.run (Fallible.ofExcept (ensure (s.index.recoveryPending = false) _) >>= fun _ =>
      Share.scanInner P approve) s = _
    rw [Fallible.run_bind, show ensure _ _ = .ok () from ensure_eq_ok.mpr hpending]
    change Fallible.run (Share.checkRoot >>= fun _ => Root.recover P >>= fun _ => Share.scanVisible P approve) s = _
    rw [Fallible.run_bind, hcheck]
    change Fallible.run (Root.recover P >>= fun _ => Share.scanVisible P approve) s = _
    rw [Fallible.run_bind, hrecover]

/-- Whether the folder is still the share's own is only looked at. -/
theorem run_checkRoot_snd {β : Type} (s : Share β) : (Fallible.run Share.checkRoot s).2 = s := by
  have hlooks : Tries Looks (fun _ => True) (Share.checkRoot : Io (Share β) Unit) := by
    have hlift : ∀ r : Result Unit, Tries Looks (fun _ => True) (Fallible.ofExcept r : Io (Share β) Unit) :=
      fun _ => Tries.ofExcept fun _ _ => trivial
    have hlook : ∀ {α : Type} (f : Share β → α), Tries Looks (fun _ => True) (Fallible.look f : Io (Share β) α) :=
      fun _ => Tries.act fun _ => rfl
    exact (hlook _).andThen fun _ _ => (hlift _).andThen fun _ _ => (looks_call fun _ => rfl).andThen fun _ _ =>
      (hlift _).andThen fun _ _ => (looks_call (Files.read_snd _)).andThen fun _ _ => (hlook _).andThen fun _ _ => hlift _
  have hsame : ∀ s', ReflTransGen Looks s s' → s' = s := fun s' h => by
    induction h with
    | refl => rfl
    | tail _ hstep ih => exact hstep.trans ih
  exact hsame _ (hlooks.run s).1

theorem unusable_of_recover {P : Platform} {fs : Files} {e : Error}
    (h : Fallible.run (Root.recover P) fs = (.error e, fs)) : Unusable P fs := by
  rintro β s rfl
  have hrecover := run_recover_share h
  -- both look at the folder first, and then recover it
  have hfail : ∀ {α : Type} (x : Io (Share β) α) (a : α), (∀ a, (Fallible.run x s).1 ≠ .ok a) →
      (Fallible.run (Share.checkRoot >>= fun _ => x) s).1 ≠ .ok a := by
    intro α x a hx
    have hsame := run_checkRoot_snd s
    rw [Fallible.run_bind]
    rcases hcheck : Fallible.run Share.checkRoot s with ⟨e' | ⟨⟩, s'⟩
    · simp
    · rw [hcheck] at hsame
      obtain rfl : s' = s := hsame
      exact hx a
  refine ⟨?_, fun approve r => ?_⟩
  · rw [Share.open_, Fallible.run_bind, Fallible.run_look]
    change (Fallible.run (Fallible.ofExcept (ensure (s.index.epoch = s.config.epoch) _) >>= fun _ =>
      Share.checkRoot >>= fun _ => Root.recover P) s).1 ≠ _
    rw [Fallible.run_bind, Fallible.run_ofExcept]
    rcases ensure (s.index.epoch = s.config.epoch) "share index epoch mismatch" with e' | ⟨⟩
    · simp
    · refine hfail _ _ fun a => ?_
      rw [hrecover]
      simp
  · rw [Share.scan, Fallible.run_bind, Share.recoveryPending, Fallible.run_look]
    change (Fallible.run (Fallible.ofExcept (ensure (s.index.recoveryPending = false) _) >>= fun _ =>
      Share.scanInner P approve) s).1 ≠ _
    rw [Fallible.run_bind, Fallible.run_ofExcept]
    rcases ensure (s.index.recoveryPending = false) _ with e' | ⟨⟩
    · simp
    · refine hfail (Root.recover P >>= fun _ => Share.scanVisible P approve) r fun a => ?_
      rw [Fallible.run_bind, hrecover]
      simp

/-- **The two journals coexist while the record is short.** There is nothing to recover in a folder, and a file that
lies directly in it is installed, with a random identifier that is new, by a receiver that may be interrupted after
its record is on the disk; meanwhile and afterwards others do what they want to the visible files. Then `recover`
succeeds and changes nothing, and shares of the folder can be opened and scanned, exactly when the record is at most 64 KiB
long; when it is longer, none can. -/
theorem recover_beside_install_iff (P : Platform) (id name : String) (part intentPath : FilePath)
    (hintent : ¬ recovery <+: intentPath) (original incoming : Manifest) (fs s : Files)
    (hstart : Fallible.run (Root.recover P) fs = (.ok (), fs))
    (hfresh : fs.node (Root.transaction id) = none) (q : Io Files FilePath)
    (hrun : Prog.Reaches Aside (prepareInstall id [name] part intentPath original incoming) fs q s) (i : ℕ)
    (hrecord : s.node (Root.record id) = some (.file i))
    (hwritten : (s.inode i).bytes = (installRecord name ⟨id, original, incoming⟩).render) :
    (Fallible.run (Root.recover P) s = (.ok (), s) ∧ Usable P s ↔
      (installRecord name ⟨id, original, incoming⟩).render.length ≤ 64 * 1024) ∧
    (¬ (installRecord name ⟨id, original, incoming⟩).render.length ≤ 64 * 1024 → Unusable P s) := by
  have hdone : s.node (Root.done id) = none := by
    refine (tries_unmarked hintent).reaches (a := fun fs => fs.node (Root.done id) = none) (fun fs fs' ha h => ?_)
      (fun fs fs' h hs => hs id h) hrun ?_
    · rwa [ha.agrees.done]
    · by_contra hd
      rw [fs.parent (Root.transaction id) "done" hd] at hfresh
      cases hfresh
  have hj : Journal id (recordText id name original incoming) s :=
    ((triple_prepareInstall hintent fs (run_recover_eq_iff.mp hstart)).reaches hrun).inv
  have hrecover := run_recover_beside P hj hdone hrecord hwritten
  change (_ ↔ (recordText id name original incoming).length ≤ 64 * 1024) ∧
    (¬ (recordText id name original incoming).length ≤ 64 * 1024 → _)
  by_cases hlen : (recordText id name original incoming).length ≤ 64 * 1024
  · rw [if_pos hlen] at hrecover
    exact ⟨iff_of_true ⟨hrecover, usable_of_recover hrecover⟩ hlen, fun h => absurd hlen h⟩
  · rw [if_neg hlen] at hrecover
    refine ⟨iff_of_false (fun h => ?_) hlen, fun _ => unusable_of_recover hrecover⟩
    rw [hrecover] at h
    cases h.1

/-! ### Runs -/

/-- Writing comes to its end. -/
theorem reaches_writeAll {env : Files → Files → Prop} {α : Type} (file : ℕ) (bytes : Bytes) (rest : Unit → Io Files α)
    (fs : Files) :
    Prog.Reaches env (Fallible.bind (writeAll file bytes) rest) fs (rest ())
      (fs.setInode file ⟨(fs.inode file).bytes ++ bytes, (fs.inode file).modified + bytes.length⟩) := by
  induction bytes generalizing fs with
  | nil =>
    have hsame : fs.setInode file ⟨(fs.inode file).bytes ++ [], (fs.inode file).modified + List.length (α := UInt8) []⟩ = fs := by
      simp [Files.setInode]
    rw [hsame]
    exact .refl
  | cons b bytes ih =>
    have h := ih (fs.append file b).2
    have hsame : (fs.append file b).2.setInode file ⟨((fs.append file b).2.inode file).bytes ++ bytes,
        ((fs.append file b).2.inode file).modified + bytes.length⟩ =
        fs.setInode file ⟨(fs.inode file).bytes ++ b :: bytes, (fs.inode file).modified + (b :: bytes).length⟩ := by
      simp [Files.append, Files.setInode, Nat.add_comm, Nat.add_assoc]
    rw [hsame] at h
    exact (Prog.Reaches.refl.step).trans h

/-- A folder with a file `a`, the marker of a share, and a staging file for `a`. -/
def beside : Files :=
  ((((((Files.empty.setInode 0 ⟨[1, 2, 3], 0⟩).setInode 1 ⟨[4], 0⟩).setInode 2 ⟨utf8 "marker", 0⟩).add ["a"] (.file 0)).add
    [".everywhere-part"] (.file 1)).add [".everywhere-folder"] (.file 2))

/-- The folder when the record is there, and still empty. -/
def recorded : Files :=
  let s₁ := (Fallible.run (privateDirectory [] ".everywhere-recovery" : Io Files FilePath) beside).2
  let s₂ := (s₁.createDir (Root.transaction "id")).2
  let s₃ := (s₂.link [".everywhere-part"] (Root.transaction "id" ++ ["incoming"])).2
  (s₃.createNew (Root.record "id")).2

/-- The folder when the record is written. -/
def written (original incoming : Manifest) : Files :=
  recorded.setInode 3 ⟨(installRecord "a" ⟨"id", original, incoming⟩).render,
    (installRecord "a" ⟨"id", original, incoming⟩).render.length⟩

theorem node_written (original incoming : Manifest) :
    (written original incoming).node (Root.record "id") = some (.file 3) := by
  have hnode : recorded.node (Root.record "id") = some (.file 3) := by decide +kernel
  exact hnode

theorem bytes_written (original incoming : Manifest) :
    ((written original incoming).inode 3).bytes = (installRecord "a" ⟨"id", original, incoming⟩).render := by
  rw [written, Files.inode_setInode, Function.update_self]

/-- Its record is written. -/
theorem reaches_record (original incoming : Manifest) : ∃ q, Prog.Reaches Aside
    (prepareInstall "id" ["a"] [".everywhere-part"] [".everywhere-install"] original incoming) beside q
      (written original incoming) := by
  let rest : Unit → Io Files FilePath := fun _ => do
    sync (Root.transaction "id")
    sync recovery
    let file ← call (Files.createNew [".everywhere-install"])
    writeAll file (InstallIntent.toJson ⟨"id", original, incoming⟩).render
    sync []
    call (Files.rename ["a"] (Root.previous "id"))
    sync (Root.transaction "id")
    sync []
    pure (Root.previous "id")
  have hfirst : Prog.Reaches Aside
      (prepareInstall "id" ["a"] [".everywhere-part"] [".everywhere-install"] original incoming : Io Files FilePath) beside
      (Fallible.bind (writeAll 3 (installRecord "a" ⟨"id", original, incoming⟩).render) rest) recorded :=
    (Fallible.reaches_bind (a := recovery) (by decide +kernel)).trans <|
      (Fallible.reaches_bind (a := ()) (by decide +kernel)).trans <|
        (Fallible.reaches_bind (a := ()) (by decide +kernel)).trans <|
          Fallible.reaches_bind (a := 3) (by decide +kernel)
  have hempty : recorded.inode 3 = ⟨[], 0⟩ := by decide +kernel
  have hwrite := @reaches_writeAll Aside _ 3 (installRecord "a" ⟨"id", original, incoming⟩).render rest recorded
  rw [hempty, List.nil_append, Nat.zero_add] at hwrite
  exact ⟨rest (), hfirst.trans hwrite⟩

theorem run_recover_start (P : Platform) : Fallible.run (Root.recover P) beside = (.ok (), beside) :=
  run_recover_quiet ⟨.inl rfl, fun id ht => by cases ht⟩

end install

/-- The manifests of the file and of what takes its place. -/
def smallManifests : Manifest × Manifest := (Manifest.ofBytes .padded [1, 2, 3], Manifest.ofBytes .padded [4])

/-- A share of the folder with the record. -/
def recordedShare : Share Unit where
  files := written smallManifests.1 smallManifests.2
  mounted := true
  objects := ∅
  index := ⟨"epoch", 0, false, ∅, [], ∅, ∅, ∅, ∅⟩
  seen := ∅
  config := ⟨"a", "0", "epoch", "marker", .bidirectional, []⟩
  random _ := ""
  input := ()
  output := []

/-- A small file is installed in a folder: the record is on the disk, and the share is opened and scanned. -/
theorem recover_beside_install_small :
    (smallManifests.1.validate = .ok () ∧ smallManifests.2.validate = .ok ()) ∧
    (∃ q, Prog.Reaches Aside (prepareInstall "id" ["a"] [".everywhere-part"] [".everywhere-install"] smallManifests.1
      smallManifests.2) beside q recordedShare.files) ∧
    Fallible.run (Root.recover .padded) recordedShare.files = (.ok (), recordedShare.files) ∧
    Fallible.run (Share.open_ .padded) recordedShare = (.ok (), recordedShare) ∧
    (Fallible.run (Share.scan .padded false) recordedShare).1 = .ok ⟨1, 0⟩ := by
  obtain ⟨q, hrun⟩ := reaches_record smallManifests.1 smallManifests.2
  obtain ⟨hrecover, husable⟩ := ((recover_beside_install_iff .padded "id" "a" [".everywhere-part"]
    [".everywhere-install"] (by decide) smallManifests.1 smallManifests.2 beside _ (run_recover_start _) (by decide +kernel) q
    hrun 3 (node_written _ _) (bytes_written _ _)).1).mpr (by decide +kernel)
  have hcheck : Fallible.run Share.checkRoot recordedShare = (.ok (), recordedShare) :=
    Prod.ext (by decide +kernel) (run_checkRoot_snd _)
  obtain ⟨hopen, hscan⟩ := husable Unit recordedShare rfl hcheck
  refine ⟨⟨by decide +kernel, by decide +kernel⟩, ⟨q, hrun⟩, hrecover, hopen rfl, ?_⟩
  rw [hscan false rfl]
  decide +kernel

/-- A file of a gibibyte. -/
def gibibyte : Manifest :=
  ⟨1024 * blockSize, String.ofList (List.replicate 64 '0'), List.replicate 1024 (String.ofList (List.replicate 64 '0'))⟩

theorem validate_gibibyte : gibibyte.validate = .ok () := by
  have hhash : isHash (String.ofList (List.replicate 64 '0')) = true := by decide +kernel
  refine Manifest.validate_eq_ok.mpr ⟨by decide +kernel, ?_, hhash, fun h hh => ?_⟩
  · rw [gibibyte, List.length_replicate]
    decide
  rw [gibibyte, List.mem_replicate] at hh
  rw [hh.2, hhash]

/-- **The record of a large file stops the folder.** An empty file is replaced with one of a gibibyte; the manifests
are valid, nobody interferes, the record is written, and `recover` fails. -/
theorem recover_beside_install_long : ∃ original s, original.validate = .ok () ∧ gibibyte.validate = .ok () ∧
    (∃ q, Prog.Reaches Aside
      (prepareInstall "id" ["a"] [".everywhere-part"] [".everywhere-install"] original gibibyte) beside q s) ∧
    (s.inode 3).bytes = (installRecord "a" ⟨"id", original, gibibyte⟩).render ∧
    Fallible.run (Root.recover Platform.sample) s = (.error (.message "oversized recovery record"), s) ∧
    Unusable Platform.sample s := by
  have hvalid : (⟨0, gibibyte.hash, []⟩ : Manifest).validate = .ok () := by decide +kernel
  obtain ⟨q, hrun⟩ := reaches_record ⟨0, gibibyte.hash, []⟩ gibibyte
  have hquiet : Quiet beside := run_recover_eq_iff.mp (run_recover_start .sample)
  have hdone : (written ⟨0, gibibyte.hash, []⟩ gibibyte).node (Root.done "id") = none := by
    have hnode : recorded.node (Root.done "id") = none := by decide +kernel
    exact hnode
  have hlong : ¬ (recordText "id" "a" ⟨0, gibibyte.hash, []⟩ gibibyte).length ≤ 64 * 1024 := by
    have hlength := @length_installRecord "id" "a" _ _ hvalid validate_gibibyte
    have hblocks : gibibyte.blocks.length = 1024 := List.length_replicate
    rw [hblocks] at hlength
    rw [recordText]
    omega
  have hrecover := run_recover_beside Platform.sample
    ((triple_prepareInstall (by decide) beside hquiet).reaches hrun).inv hdone (node_written _ _) (bytes_written _ _)
  rw [if_neg hlong] at hrecover
  exact ⟨_, _, hvalid, validate_gibibyte, ⟨q, hrun⟩, bytes_written _ _, hrecover, unusable_of_recover hrecover⟩

end Everywhere
