import Everywhere.Folder.Calls
import Everywhere.Share.Program
import Everywhere.Share.Register

/-!
# The steps of a share

While a program of a share runs, others may change the folder, the list of approved peers and what the peer sends
(`Outside`), but not the index. So what the program has read from the index still holds when it writes, and each of
its steps is a transaction of the kinds of `Share.Register` (`works_program`).

A share is `Reachable` when it was created, or imported from a checkpoint, and then programs followed each other,
each stopped anywhere, or its index was restored from a checkpoint.
-/

namespace Everywhere

open Library

/-- All functions that read messages are of a kind. -/
structure Wire.All {β : Type} (W : Wire β) (hear : ∀ α : Type, (β → Result α × β) → Prop) : Prop where
  /-- The start of a session. -/
  hello : hear _ W.hello
  /-- Records of the index, or their end. -/
  metadata : hear _ W.metadata
  /-- The objects that the peer wants. -/
  objects : hear _ W.objects
  /-- What the peer knows of an object. -/
  manifest : hear _ W.manifest
  /-- The blocks of it that the peer wants. -/
  wanted : hear _ W.wanted
  /-- A block. -/
  block : ∀ len, hear _ (W.block len)
  /-- The number of a block that has arrived. -/
  received : hear _ W.received
  /-- The end of a step of the protocol. -/
  text : hear _ W.text

/-- Of functions of which nothing is said. -/
abbrev anyhow {β : Type} : ∀ α : Type, (β → Result α × β) → Prop := fun _ _ => True

theorem Wire.all {β : Type} (W : Wire β) : W.All anyhow :=
  ⟨trivial, trivial, trivial, trivial, trivial, fun _ => trivial, trivial, trivial⟩

namespace Share

variable {β : Type}

/-- What others may do to a share while a program runs. -/
structure Outside (s s' : Share β) : Prop where
  /-- The index is locked. -/
  index : s'.index = s.index
  /-- So are the objects. -/
  objects : s'.objects = s.objects
  /-- What the scan has seen is the program's. -/
  seen : s'.seen = s.seen
  /-- So is what it has sent. -/
  output : s'.output = s.output
  /-- The random identifiers do not change. -/
  random : s'.random = s.random
  /-- Of the configuration only the list of peers changes. -/
  config : { s'.config with peers := s.config.peers } = s.config

theorem Outside.replica {s s' : Share β} (h : Outside s s') : s'.config.replica = s.config.replica := by
  rw [← h.config]
  rfl

theorem Outside.epoch {s s' : Share β} (h : Outside s s') : s'.config.epoch = s.config.epoch := by
  rw [← h.config]

theorem Outside.mode {s s' : Share β} (h : Outside s s') : s'.config.mode = s.config.mode := by
  rw [← h.config]

/-- No deletion is seen in the folder. -/
def SeenOk (s : Share β) : Prop := ∀ path : String, s.seen[path]? ≠ some Content.deleted

/-- A step that leaves the index alone. -/
structure Quiet (s s' : Share β) : Prop where
  /-- The index stays. -/
  index : s'.index = s.index
  /-- So does the name for changes. -/
  replica : s'.config.replica = s.config.replica
  /-- So does the generation. -/
  epoch : s'.config.epoch = s.config.epoch
  /-- What was seen is still no deletion. -/
  seen : SeenOk s → SeenOk s'

theorem quiet_files (s : Share β) (fs : Files) : Quiet s (HasFiles.setFiles fs s) := ⟨rfl, rfl, rfl, id⟩

theorem Quiet.refl (s : Share β) : Quiet s s := ⟨rfl, rfl, rfl, id⟩

/-! ### Programs that only look and talk -/

section talk

variable {P : Platform} {W : Wire β} {may : Message → Prop} {hear : ∀ α : Type, (β → Result α × β) → Prop}

/-- The steps that read the state, send one of some messages, or read one in one of some ways. -/
inductive Talk (may : Message → Prop) (hear : ∀ α : Type, (β → Result α × β) → Prop) :
    ∀ γ : Type, (Share β → γ × Share β) → Prop where
  /-- Read the state. -/
  | look {α : Type} (f : Share β → α) : Talk may hear (Except Error α) fun s => (.ok (f s), s)
  /-- Send a message. -/
  | send (m : Message) : may m → Talk may hear (Result Unit) fun s => (.ok (), { s with output := s.output ++ [m] })
  /-- Read a message. -/
  | read {α : Type} (f : β → Result α × β) : hear α f →
    Talk may hear (Result α) fun s => ((f s.input).1, { s with input := (f s.input).2 })

theorem talk_look {α : Type} (f : Share β → α) : Only (Talk may hear) (Fallible.look f : Io (Share β) α) := Only.act (.look f)

theorem talk_send {m : Message} (h : may m) : Only (Talk may hear) (send m : Io (Share β) Unit) := Only.act (.send m h)

theorem talk_read {α : Type} {f : β → Result α × β} (h : hear α f) : Only (Talk may hear) (read f : Io (Share β) α) :=
  Only.act (.read f h)

theorem talk_authorize (peer : String) (writing : Bool) :
    Only (Talk may hear) (authorize peer writing : Io (Share β) Unit) :=
  (talk_look _).andThen fun _ => (only_lift _).andThen fun _ => only_lift _

theorem talk_readObject (hash : String) : Only (Talk may hear) (readObject hash : Io (Share β) Bytes) := by
  refine (talk_look _).andThen fun bytes => ?_
  split
  · exact only_pure _
  · exact only_fail _

theorem talk_objectManifest (hash : String) : Only (Talk may hear) (objectManifest P hash : Io (Share β) Manifest) :=
  (talk_readObject hash).andThen fun _ => (only_lift _).andThen fun _ => only_pure _

theorem talk_missingObjects (limit : ℕ) : Only (Talk may hear) (missingObjects limit : Io (Share β) (List String)) :=
  (only_lift _).andThen fun _ => talk_look _

theorem talk_sendPages (hmay : ∀ page, may (.metadata (.page page))) (peer : String) (ceiling fuel since : ℕ) :
    Only (Talk may hear) (sendPages peer ceiling fuel since : Io (Share β) Unit) := by
  induction fuel generalizing since with
  | zero => exact only_pure _
  | succ fuel ih =>
    refine (talk_authorize _ _).andThen fun _ => (talk_look _).andThen fun page => ?_
    split
    · exact only_pure _
    · exact (talk_send (hmay _)).andThen fun _ => ih _

theorem talk_sendMetadata (hmay : ∀ m, may (.metadata m)) (peer : String) (mine theirs : Hello) :
    Only (Talk may hear) (sendMetadata peer mine theirs : Io (Share β) Unit) := by
  unfold sendMetadata
  split
  · exact (only_lift _).andThen fun _ => (talk_sendPages (fun _ => hmay _) _ _ _ _).andThen fun _ =>
      talk_send (hmay _)
  · exact (only_pure ()).andThen fun _ => talk_send (hmay _)

theorem talk_basisObject (hash : String) : Only (Talk may hear) (basisObject hash : Io (Share β) (Option String)) :=
  (only_lift _).andThen fun _ => talk_look _

theorem talk_fetchBlocks (hW : W.All hear) (hmay : ∀ k, may (.received k)) (peer : String) (manifest : Manifest) (missing : List ℕ) :
    Only (Talk may hear) (fetchBlocks P W peer manifest missing) := by
  induction missing with
  | nil => exact only_pure _
  | cons index rest ih =>
    exact (talk_authorize _ _).andThen fun _ => (only_lift _).andThen fun len => (talk_read (hW.block len)).andThen fun r =>
      (only_lift _).andThen fun _ => (only_lift _).andThen fun _ => (talk_send (hmay _)).andThen fun _ =>
        ih.andThen fun _ => only_pure _

theorem talk_sendObject (hW : W.All hear) (hmay : ∀ m, may m) (peer hash : String) : Only (Talk may hear) (sendObject P W peer hash) := by
  refine (only_lift _).andThen fun object => (talk_authorize _ _).andThen fun _ =>
    (talk_objectManifest object).andThen fun manifest => (only_lift _).andThen fun _ => (talk_send (hmay _)).andThen
      fun _ => (talk_read hW.wanted).andThen fun missing => (only_lift _).andThen fun _ => ?_
  refine Only.andThen (Only.forM fun index _ => ?_) fun _ => (talk_objectManifest object).andThen fun _ =>
    (only_lift _).andThen fun _ => (talk_authorize _ _).andThen fun _ => (talk_send (hmay _)).andThen fun _ =>
      (talk_read hW.text).andThen fun _ => only_lift _
  exact (talk_authorize _ _).andThen fun _ => (only_lift _).andThen fun _ => (talk_readObject _).andThen fun _ =>
    (only_lift _).andThen fun _ => (talk_send (hmay _)).andThen fun _ => (talk_read hW.received).andThen fun _ =>
      (talk_authorize _ _).andThen fun _ => only_lift _

theorem talk_serveObjects (hW : W.All hear) (hmay : ∀ m, may m) (peer : String) (rounds : ℕ) :
    Only (Talk may hear) (serveObjects P W peer rounds) := by
  induction rounds with
  | zero => exact only_fail _
  | succ rounds ih =>
    refine (talk_read hW.objects).andThen fun requested => (only_lift _).andThen fun _ => ?_
    split
    · exact only_pure _
    · refine (talk_look _).andThen fun _ => (only_lift _).andThen fun _ => ?_
      exact (Only.forM fun hash _ => (talk_authorize _ _).andThen fun _ => talk_sendObject hW hmay _ _).andThen fun _ => ih

theorem talk_handshake (hW : W.All hear) (hmay : ∀ h, may (.hello h)) (peer : String) : Only (Talk may hear) (handshake W peer) :=
  (talk_look _).andThen fun _ => (talk_send (hmay _)).andThen fun _ => (talk_read hW.hello).andThen fun _ =>
    (only_lift _).andThen fun _ => (talk_look _).andThen fun _ => (only_lift _).andThen fun _ => only_pure _

theorem talk_findRevision (path revision : String) (historical : Bool) (l : Row) :
    Only (Talk may hear) (findRevision P path revision historical l : Io (Share β) Revision) := by
  unfold findRevision
  split
  · refine (talk_look _).andThen fun kept => ?_
    split
    · exact only_pure _
    · exact only_fail _
  · split
    · exact only_pure _
    · exact only_fail _

end talk

/-! ### Programs that open the share or fetch objects -/

section fetch

variable {P : Platform} {W : Wire β} {may : Message → Prop} {hear : ∀ α : Type, (β → Result α × β) → Prop}
  {allowed : ∀ γ : Type, (Share β → γ × Share β) → Prop}

theorem only_checkRoot
    (hlook : ∀ {γ : Type} (f : Share β → γ), (∀ s b, f { s with input := b } = f s) →
      allowed (Except Error γ) fun s => (.ok (f s), s))
    (hcall : ∀ {γ : Type} (op : Files → Files.Outcome γ), allowed (Except Error γ)
      fun s => ((op (HasFiles.files s)).1.mapError .io, HasFiles.setFiles (op (HasFiles.files s)).2 s)) :
    Only allowed (checkRoot : Io (Share β) Unit) :=
  (Only.act (hlook _ fun _ _ => rfl)).andThen fun _ => (only_lift _).andThen fun _ => (only_call hcall _).andThen
    fun _ => (only_lift _).andThen fun _ => (only_call hcall _).andThen fun _ =>
      (Only.act (hlook _ fun _ _ => rfl)).andThen fun _ => only_lift _

theorem only_open
    (hlook : ∀ {γ : Type} (f : Share β → γ), (∀ s b, f { s with input := b } = f s) →
      allowed (Except Error γ) fun s => (.ok (f s), s))
    (hcall : ∀ {γ : Type} (op : Files → Files.Outcome γ), allowed (Except Error γ)
      fun s => ((op (HasFiles.files s)).1.mapError .io, HasFiles.setFiles (op (HasFiles.files s)).2 s)) :
    Only allowed (open_ P : Io (Share β) Unit) :=
  (Only.act (hlook _ fun _ _ => rfl)).andThen fun _ => (only_lift _).andThen fun _ =>
    (only_checkRoot hlook hcall).andThen fun _ => only_recover P hcall

theorem only_receiveObject (htalk : ∀ γ act, Talk may hear γ act → allowed γ act)
    (hobject : ∀ hash bytes, allowed (Result Unit) fun s =>
      (.ok (), { s with objects := s.objects.insert hash bytes }))
    (hW : W.All hear) (hwanted : ∀ ks, may (.wanted ks)) (hreceived : ∀ k, may (.received k))
    (htext : ∀ t, may (.text t)) (peer hash : String) (basis : Option String) :
    Only allowed (receiveObject P W peer hash basis) := by
  refine ((talk_read hW.manifest).mono htalk).andThen fun manifest => (only_lift _).andThen fun _ =>
    (only_lift _).andThen fun _ => ((talk_authorize _ _).mono htalk).andThen fun _ =>
      ((talk_look _).mono htalk).andThen fun known => ((talk_send (hwanted _)).mono htalk).andThen fun _ =>
        ((talk_fetchBlocks hW hreceived _ _ _).mono htalk).andThen fun blocks => ?_
  exact ((talk_read hW.text).mono htalk).andThen fun commit => (only_lift _).andThen fun _ =>
    (only_lift _).andThen fun _ => ((talk_authorize _ _).mono htalk).andThen fun _ =>
      (Only.act (hobject _ _)).andThen fun _ => (talk_send (htext _)).mono htalk

theorem only_pullPages (htalk : ∀ γ act, Talk may hear γ act → allowed γ act)
    (hobject : ∀ hash bytes, allowed (Result Unit) fun s =>
      (.ok (), { s with objects := s.objects.insert hash bytes }))
    (herase : ∀ hash, Only allowed (transaction fun i => .ok { i with needed := i.needed.erase hash } :
      Io (Share β) Unit))
    (hW : W.All hear) (hobjects : ∀ hs, may (.objects hs)) (hwanted : ∀ ks, may (.wanted ks))
    (hreceived : ∀ k, may (.received k)) (htext : ∀ t, may (.text t)) (peer : String) (fuel : ℕ) :
    Only allowed (pullPages P W peer fuel) := by
  induction fuel with
  | zero => exact only_fail _
  | succ fuel ih =>
    refine ((talk_missingObjects _).mono htalk).andThen fun missing =>
      ((talk_send (hobjects _)).mono htalk).andThen fun _ => ?_
    split
    · exact only_pure _
    · refine Only.andThen (Only.forM fun hash _ => ?_) fun _ => ih
      exact ((talk_basisObject _).mono htalk).andThen fun _ =>
        (only_receiveObject htalk hobject hW hwanted hreceived htext _ _ _).andThen fun _ =>
          (only_lift _).andThen fun _ => ((talk_objectManifest _).mono htalk).andThen fun _ =>
            (only_lift _).andThen fun _ => herase hash

end fetch

/-! ### Programs that leave the index alone -/

section quiet

variable {P : Platform} {W : Wire β} {may : Message → Prop} {hear : ∀ α : Type, (β → Result α × β) → Prop}

theorem Talk.quiet {γ : Type} {act : Share β → γ × Share β} (h : Talk may hear γ act)
    (s : Share β) : Quiet s (act s).2 := by
  cases h with
  | look f => exact .refl s
  | send m _ => exact ⟨rfl, rfl, rfl, id⟩
  | read f _ => exact ⟨rfl, rfl, rfl, id⟩

/-- Who only looks and talks leaves the index alone. -/
theorem quiet_talk {α : Type} {p : Io (Share β) α} (h : Only (Talk (fun _ => True) anyhow) p) :
    Tries Quiet (fun _ => True) p :=
  Tries.ofOnly (h.mono fun _ _ ha => ha.quiet)

theorem quiet_look {α : Type} (f : Share β → α) : Tries Quiet (fun _ => True) (Fallible.look f : Io (Share β) α) :=
  quiet_talk (talk_look f)

theorem quiet_pure {α : Type} (a : α) : Tries Quiet (fun _ => True) (pure a : Io (Share β) α) := quiet_talk (only_pure a)

theorem quiet_lift {α : Type} (r : Result α) : Tries Quiet (fun _ => True) (Fallible.ofExcept r : Io (Share β) α) :=
  quiet_talk (only_lift r)

theorem quiet_send (m : Message) : Tries Quiet (fun _ => True) (send m : Io (Share β) Unit) :=
  quiet_talk (talk_send trivial)

theorem quiet_read {α : Type} (f : β → Result α × β) : Tries Quiet (fun _ => True) (read f : Io (Share β) α) :=
  quiet_talk (talk_read trivial)

theorem quiet_authorize (peer : String) (writing : Bool) :
    Tries Quiet (fun _ => True) (authorize peer writing : Io (Share β) Unit) := quiet_talk (talk_authorize _ _)

theorem quiet_call {α : Type} (op : Files → Files.Outcome α) :
    Tries Quiet (fun _ => True) (call op : Io (Share β) α) := tries_call quiet_files op

theorem quiet_recover : Tries Quiet (fun _ => True) (Root.recover P : Io (Share β) Unit) :=
  Tries.ofOnly (only_recover P fun _ s => quiet_files s _)

theorem quiet_file (path : String) : Tries Quiet (fun _ => True) (Root.file path : Io (Share β) ℕ) :=
  Tries.ofOnly (only_file (fun _ s => quiet_files s _) path)

theorem quiet_fromFile (file : ℕ) : Tries Quiet (fun _ => True) (Manifest.fromFile P file : Io (Share β) Manifest) :=
  Tries.ofOnly (only_fromFile P (fun _ s => quiet_files s _) file)

theorem quiet_checkRoot : Tries Quiet (fun _ => True) (checkRoot : Io (Share β) Unit) :=
  Tries.ofOnly (only_checkRoot (fun _ _ s => .refl s) fun _ s => quiet_files s _)

theorem quiet_open : Tries Quiet (fun _ => True) (open_ P : Io (Share β) Unit) :=
  Tries.ofOnly (only_open (fun _ _ s => .refl s) fun _ s => quiet_files s _)

theorem quiet_objectManifest (hash : String) :
    Tries Quiet (fun _ => True) (objectManifest P hash : Io (Share β) Manifest) := quiet_talk (talk_objectManifest hash)

theorem quiet_apply (id path : String) (before : Option Content) (after : Content) (object : Option String) :
    Tries Quiet (fun _ => True) (Root.apply P id path before after (object.map readObject) : Io (Share β) Unit) := by
  refine Tries.ofOnly (only_apply P (fun _ s => quiet_files s _) id path before after fun input hin => ?_)
  obtain ⟨hash, -, rfl⟩ := Option.mem_map.mp hin
  exact (@talk_readObject _ (fun _ => True) anyhow hash).mono fun _ _ ha => ha.quiet

theorem quiet_createObject (hash : String) (bytes : Bytes) :
    Tries Quiet (fun _ => True) (createObject hash bytes : Io (Share β) Unit) := by
  refine Tries.act fun s => ?_
  cases s.objects[hash]? with
  | none => exact ⟨rfl, rfl, rfl, id⟩
  | some _ => exact .refl s

/-- What a capture yields is a file. -/
theorem quiet_capture (path : String) :
    Tries Quiet (fun c => c ≠ Content.deleted) (capture P path : Io (Share β) Content) := by
  have hfile : ∀ hash, Tries Quiet (fun c => c ≠ Content.deleted) (pure (.file hash) : Io (Share β) Content) :=
    fun hash => Tries.ofExcept fun c hc => by obtain rfl := Except.ok.inj hc; simp
  refine (quiet_file path).andThen fun file _ => (quiet_fromFile file).andThen fun manifest _ =>
    (quiet_lift _).andThen fun object _ => (quiet_look _).andThen fun found _ => ?_
  split
  · exact (quiet_objectManifest object).andThen fun _ _ => (quiet_lift _).andThen fun _ _ => hfile _
  · exact (quiet_file path).andThen fun _ _ => (quiet_call _).andThen fun _ _ =>
      (quiet_lift _).andThen fun _ _ => (quiet_createObject _ _).andThen fun _ _ => hfile _

theorem quiet_recordSeen (path : String) {content : Content} (hc : content ≠ .deleted) :
    Tries Quiet (fun _ => True) (recordSeen P path content : Io (Share β) Unit) := by
  refine Tries.act fun s => ?_
  split_ifs
  · refine ⟨rfl, rfl, rfl, fun h other => ?_⟩
    change (s.seen.insert path content)[other]? ≠ _
    rw [Std.ExtTreeMap.getElem?_insert]
    split_ifs
    · simpa using hc
    · exact h other
  · exact .refl s

theorem quiet_visit : Tries Quiet (fun _ => True) (Root.visit fun path isDir => do
    let content ← if isDir then pure Content.directory else capture P path
    recordSeen P path content : Io (Share β) Unit) := by
  refine tries_visit quiet_files fun path isDir => ?_
  have hdir : Tries Quiet (fun c => c ≠ Content.deleted) (pure .directory : Io (Share β) Content) :=
    Tries.ofExcept fun c hc => by obtain rfl := Except.ok.inj hc; simp
  split
  · exact hdir.andThen fun _ hc => quiet_recordSeen path hc
  · exact (quiet_capture path).andThen fun _ hc => quiet_recordSeen path hc

theorem quiet_receiveObject (peer hash : String) (basis : Option String) :
    Tries Quiet (fun _ => True) (receiveObject P W peer hash basis) :=
  Tries.ofOnly (@only_receiveObject _ _ _ (fun _ => True) _ _ (fun _ _ h => h.quiet) (fun _ _ _ => ⟨rfl, rfl, rfl, id⟩) W.all
    (fun _ => trivial) (fun _ => trivial) (fun _ => trivial) peer hash basis)

end quiet

/-! ### Programs that change the index -/

section works

variable {P : Platform} {W : Wire β} {replica : String} {approve settle : Bool} {i : Index} {α γ : Type}

/-- What holds of a share at all times. -/
def Held (replica : String) (s : Share β) : Prop := s.config.replica = replica ∧ SeenOk s

/-- What a program that has read the index relies on. -/
def Own (replica : String) (i : Index) (s : Share β) : Prop := Held replica s ∧ s.index = i

variable (P replica approve settle) in
/-- The terms: each step is a transaction. -/
def terms : Contract (Share β) where
  rely := Outside
  guar s s' := Index.Chain P replica approve settle s.index s'.index ∧ s'.config.replica = s.config.replica ∧
    s'.config.epoch = s.config.epoch
  inv := Held replica

variable (P replica approve settle) in
/-- The program keeps to the terms. -/
def Works (p : Io (Share β) α) : Prop :=
  Triple (terms P replica approve settle) (Held replica) p (outcome (fun _ => Held replica) fun _ => Held replica)

variable (P replica approve settle i) in
/-- The program keeps to the terms when it begins with a given index. -/
def WorksOn (p : Io (Share β) α) : Prop :=
  Triple (terms P replica approve settle) (Own replica i) p (outcome (fun _ => Held replica) fun _ => Held replica)

theorem stable_held : Stable (terms (β := β) P replica approve settle) (Held replica) := fun s s' h hs => by
  refine ⟨h.replica.trans hs.1, fun path => ?_⟩
  rw [h.seen]
  exact hs.2 path

theorem stable_own : Stable (terms (β := β) P replica approve settle) (Own replica i) :=
  fun s s' h hs => ⟨@stable_held _ P _ approve settle s s' h hs.1, h.index.trans hs.2⟩

/-- A program that leaves the index alone knows afterwards what it knew. -/
theorem own_quiet {V : α → Prop} {p : Io (Share β) α} (h : Tries Quiet V p) :
    Triple (terms P replica approve settle) (Own replica i) p
      (outcome (fun a s => Own replica i s ∧ V a) fun _ => Own replica i) :=
  h.triple stable_own (fun _ h => h.1) fun s s' hs hq => by
    refine ⟨⟨?_, hq.replica, hq.epoch⟩, ⟨hq.replica.trans hs.1.1, hq.seen hs.1.2⟩, hq.index.trans hs.2⟩
    rw [hq.index]

theorem own_look {V : α → Prop} {f : Share β → α} (h : ∀ s, Own replica i s → V (f s)) :
    Triple (terms P replica approve settle) (Own replica i) (Fallible.look f : Io (Share β) α)
      (outcome (fun a s => Own replica i s ∧ V a) fun _ => Own replica i) :=
  Triple.look stable_own (fun _ h => h.1) (fun _ => ⟨.refl, rfl, rfl⟩) h

theorem own_lift {r : Result α} :
    Triple (terms P replica approve settle) (Own (β := β) replica i) (Fallible.ofExcept r : Io (Share β) α)
      (outcome (fun a s => Own replica i s ∧ r = .ok a) fun _ => Own replica i) :=
  Triple.ofExcept stable_own (fun _ h => h.1) fun s hs => by
    cases r with
    | error e => exact hs
    | ok a => exact ⟨hs, rfl⟩

/-- A program that may begin with any index. -/
theorem works_iff {p : Io (Share β) α} : Works P replica approve settle p ↔ ∀ i, WorksOn P replica approve settle i p :=
  ⟨fun h _ s hs => h s hs.1, fun h s hs => h s.index s ⟨hs, rfl⟩⟩

theorem Works.on {p : Io (Share β) α} (h : Works P replica approve settle p) : WorksOn P replica approve settle i p := works_iff.mp h i

theorem WorksOn.seq {V : α → Prop} {p : Io (Share β) α} {f : α → Io (Share β) γ}
    (h : Triple (terms P replica approve settle) (Own replica i) p
      (outcome (fun a s => Own replica i s ∧ V a) fun _ => Own replica i))
    (hf : ∀ a, V a → WorksOn P replica approve settle i (f a)) : WorksOn P replica approve settle i (p >>= f) := by
  refine Triple.andThen (h.conseq (fun _ h => h) fun r s hr => ?_) fun a => Triple.fact fun ha => hf a ha
  cases r with
  | error e => exact hr.1
  | ok a => exact hr

theorem Works.andThen {p : Io (Share β) α} {f : α → Io (Share β) γ} (h : Works P replica approve settle p)
    (hf : ∀ a, Works P replica approve settle (f a)) : Works P replica approve settle (p >>= f) := Triple.andThen h hf

theorem WorksOn.andThen {p : Io (Share β) α} {f : α → Io (Share β) γ} (h : WorksOn P replica approve settle i p)
    (hf : ∀ a, Works P replica approve settle (f a)) : WorksOn P replica approve settle i (p >>= f) := Triple.andThen h hf

theorem works_quiet {V : α → Prop} {p : Io (Share β) α} (h : Tries Quiet V p) : Works P replica approve settle p :=
  works_iff.mpr fun _ => (own_quiet h).conseq (fun _ h => h) fun r s hr => by
    cases r with
    | error e => exact hr.1
    | ok a => exact hr.1.1

theorem works_pure (a : α) : Works P replica approve settle (pure a : Io (Share β) α) := works_quiet (quiet_pure a)

theorem works_fail (e : Error) : Works P replica approve settle (Fallible.fail e : Io (Share β) α) :=
  works_quiet (V := fun _ => True) Tries.fail

theorem works_forM {l : List α} {f : α → Io (Share β) Unit} (hf : ∀ a, Works P replica approve settle (f a)) :
    Works P replica approve settle (l.forM f) := by
  induction l with
  | nil => exact works_pure _
  | cons a l ih => exact (hf a).andThen fun _ => ih

/-- A transaction that is a chain of calls of `save`. -/
theorem worksOn_transaction {f : Index → Result Index} (h : ∀ i', f i = .ok i' → Index.Chain P replica approve settle i i') :
    WorksOn P replica approve settle i (transaction f : Io (Share β) Unit) := by
  refine (Triple.act (Q := fun _ => Held replica) stable_own (fun _ h => h.1) (fun _ => stable_held)
    (fun _ _ h => h) fun s hs => ?_).conseq (fun _ h => h) fun r s hr => ?_
  · obtain ⟨hheld, rfl⟩ := hs
    cases hf : f s.index with
    | error e => exact ⟨⟨.refl, rfl, rfl⟩, hheld⟩
    | ok i' => exact ⟨⟨h i' hf, rfl, rfl⟩, hheld⟩
  · cases r with
    | error e => exact hr
    | ok a => exact hr

theorem works_transaction {f : Index → Result Index}
    (h : ∀ i i', f i = .ok i' → Index.Chain P replica approve settle i i') :
    Works P replica approve settle (transaction f : Io (Share β) Unit) :=
  works_iff.mpr fun i => worksOn_transaction (h i)

/-! ### The operations -/

theorem works_scanInner (approveDeletes : Bool) (happrove : approveDeletes = true → approve = true) :
    Works P replica approve settle (scanInner P approveDeletes : Io (Share β) ScanReport) := by
  refine works_iff.mpr fun i => WorksOn.seq (own_quiet quiet_checkRoot) fun _ _ =>
    WorksOn.seq (own_quiet (quiet_recover)) fun _ _ => ?_
  refine WorksOn.seq (V := fun _ => True) (own_quiet (Tries.act fun s => ⟨rfl, rfl, rfl, fun _ path => ?_⟩)) fun _ _ =>
    WorksOn.seq (own_quiet quiet_visit) fun _ _ => WorksOn.seq (own_quiet quiet_checkRoot) fun _ _ => ?_
  · simp
  refine WorksOn.seq (own_look (f := fun s : Share β => (s.config, s.index, s.seen))
    (V := fun r : Config × Index × Std.ExtTreeMap String Content => r.1.replica = replica ∧ r.2.1 = i ∧
      ∀ path : String, r.2.2[path]? ≠ some Content.deleted) fun s hs =>
      ⟨hs.1.1, hs.2, fun path => hs.1.2 path⟩) fun r hr => ?_
  obtain ⟨config, index, seen⟩ := r
  obtain ⟨rfl, rfl, hseen⟩ := hr
  refine WorksOn.seq own_lift fun r hscan => ?_
  obtain ⟨index', report⟩ := r
  replace hscan : index.scan P config.replica approveDeletes seen = .ok (index', report) := hscan
  refine WorksOn.seq (own_quiet quiet_checkRoot) fun _ _ => WorksOn.andThen (worksOn_transaction fun i' hi => ?_) fun _ => works_pure _
  obtain rfl := Except.ok.inj hi
  exact Index.scan_chain happrove hseen hscan

theorem works_scan (approveDeletes : Bool) (happrove : approveDeletes = true → approve = true) :
    Works P replica approve settle (scan P approveDeletes : Io (Share β) ScanReport) :=
  (works_quiet (quiet_look _)).andThen fun _ => (works_quiet (quiet_lift _)).andThen fun _ =>
    works_scanInner approveDeletes happrove

theorem works_scanFalse : Works P replica approve settle (scan P false : Io (Share β) ScanReport) :=
  works_scan false fun h => by cases h

theorem works_beginIncoming : Works P replica approve settle (beginIncoming : Io (Share β) Unit) :=
  works_transaction fun i i' h => by
    obtain rfl := Except.ok.inj h
    exact (Index.aside_beginIncoming i).chain

theorem works_stage (peer : String) (records : List Record) :
    Works P replica approve settle (stage P peer records : Io (Share β) Unit) :=
  (works_quiet (quiet_authorize _ _)).andThen fun _ => (works_quiet (quiet_lift _)).andThen fun _ =>
    (works_quiet (quiet_look _)).andThen fun _ => works_transaction fun _ _ h => (Index.aside_stage h).chain

theorem works_objectReceived (hash : String) : Works P replica approve settle (objectReceived P hash : Io (Share β) Unit) := by
  refine (works_quiet (quiet_lift _)).andThen fun _ => (works_quiet (quiet_objectManifest _)).andThen fun _ =>
    (works_quiet (quiet_lift _)).andThen fun _ => works_transaction fun i i' h => ?_
  obtain rfl := Except.ok.inj h
  exact (show Index.Aside P i { i with needed := i.needed.erase hash } from
    ⟨⟨rfl, rfl, rfl, rfl, fun _ _ h => .inl h, fun _ h => .inl h⟩, rfl, rfl⟩).chain

/-- What is applied is the row as it was read. -/
theorem worksOn_applyLocal {path : String} {l : Row} (hl : i.entries[path]? = some l) :
    WorksOn P replica approve settle i (applyLocal P path l : Io (Share β) Unit) := by
  have hrest : ∀ (r : Revision) (object : Option String), l.versions.selected P = some r →
      WorksOn P replica approve settle i (do
        checkRoot
        let id ← randomId
        Root.apply P id path l.materialized r.content (object.map readObject)
        transaction fun i => i.applied P path l.versions r.content : Io (Share β) Unit) := by
    intro r object hr
    refine WorksOn.seq (own_quiet quiet_checkRoot) fun _ _ =>
      WorksOn.seq (V := fun _ => True) (own_quiet (Tries.act fun _ => ⟨rfl, rfl, rfl, id⟩)) fun id _ => ?_
    exact WorksOn.seq (own_quiet (quiet_apply _ _ _ _ _)) fun _ _ =>
      worksOn_transaction fun i' h => (Index.Saves.applied hl hr h).chain
  unfold applyLocal
  split
  next r hr =>
    refine WorksOn.seq own_lift fun selected hsel => ?_
    obtain rfl := Except.ok.inj hsel
    beta_reduce
    split
    · exact WorksOn.seq (own_quiet (quiet_lift _)) fun object _ =>
        WorksOn.seq (own_quiet (quiet_pure _)) fun _ _ => hrest r _ hr
    · exact WorksOn.seq (own_quiet (quiet_pure _)) fun _ _ => hrest r _ hr
  next => exact WorksOn.seq own_lift fun _ h => by cases h

theorem works_applyPage (peer : String) (paths : List String) :
    Works P replica approve settle (applyPage P peer paths : Io (Share β) Unit) := by
  refine works_forM fun path => works_iff.mpr fun i => ?_
  refine WorksOn.seq (own_look (V := fun found => i.entries[path]? = found) fun s hs => by rw [← hs.2])
    fun found hfound => ?_
  split
  · exact WorksOn.seq (own_quiet (quiet_authorize _ _)) fun _ _ => worksOn_applyLocal hfound
  · exact (works_pure _).on

theorem works_applyPages (peer : String) (fuel : ℕ) :
    Works P replica approve settle (applyPages P peer fuel : Io (Share β) Unit) := by
  induction fuel with
  | zero => exact works_fail _
  | succ fuel ih =>
    refine (works_quiet (quiet_look _)).andThen fun paths => ?_
    split
    · exact works_pure _
    · exact (works_applyPage _ _).andThen fun _ => ih

theorem works_applyPending (peer : String) : Works P replica approve settle (applyPending P peer : Io (Share β) Unit) :=
  (works_quiet (quiet_look _)).andThen fun _ => works_applyPages _ _

theorem works_joinStaged : Works P replica approve settle (joinStaged P : Io (Share β) Unit) :=
  works_transaction fun _ _ h => Index.joinIncoming_chain h

/-- A transaction that touches nothing but what is known of peers, or whether one is awaited. -/
theorem works_settles {f : Index → Index} (h : ∀ i, Index.Settles P i (f i)) :
    Works P replica approve true (transaction fun i => .ok (f i) : Io (Share β) Unit) :=
  works_transaction fun i i' hi => by
    obtain rfl := Except.ok.inj hi
    exact .single (.settle rfl (h i))

theorem works_commitIncoming (peer : String) : Works P replica approve true (commitIncoming P peer : Io (Share β) Unit) := by
  refine (works_quiet (quiet_authorize _ _)).andThen fun _ => (works_quiet quiet_checkRoot).andThen fun _ =>
    (works_quiet (quiet_talk (talk_missingObjects _))).andThen fun _ => (works_quiet (quiet_lift _)).andThen fun _ =>
      (works_quiet (quiet_look _)).andThen fun recovering => ?_
  have hscan : Works P replica approve true (scanInner P false : Io (Share β) ScanReport) :=
    works_scanInner false fun h => by cases h
  have hclear : Works P replica approve true
      (transaction fun i => .ok { i with recoveryPending := false } : Io (Share β) Unit) :=
    works_settles fun i => ⟨⟨rfl, rfl, rfl, rfl, fun _ _ h => .inl h, fun _ h => .inl h⟩, fun h => by cases h⟩
  cases recovering with
  | true =>
    exact (works_pure ()).andThen fun _ => works_joinStaged.andThen fun _ => hscan.andThen fun _ =>
      (works_pure ()).andThen fun _ => (works_applyPending peer).andThen fun _ => hclear
  | false =>
    exact works_scanFalse.andThen fun _ => (works_pure ()).andThen fun _ => works_joinStaged.andThen fun _ =>
      (works_pure ()).andThen fun _ => (works_applyPending peer).andThen fun _ => works_pure ()

theorem works_readPages (peer : String) (theirs : Hello) (fuel last : ℕ) :
    Works P replica approve settle (readPages P W peer theirs fuel last) := by
  induction fuel generalizing last with
  | zero => exact works_fail _
  | succ fuel ih =>
    refine (works_quiet (quiet_authorize _ _)).andThen fun _ => (works_quiet (quiet_read _)).andThen fun m => ?_
    split
    · exact works_pure _
    · exact (works_quiet (quiet_lift _)).andThen fun _ => (works_quiet (quiet_lift _)).andThen fun _ =>
        (works_stage _ _).andThen fun _ => ih _

theorem works_pullPages (peer : String) (fuel : ℕ) : Works P replica approve settle (pullPages P W peer fuel) := by
  induction fuel with
  | zero => exact works_fail _
  | succ fuel ih =>
    refine (works_quiet (quiet_talk (talk_missingObjects _))).andThen fun missing => (works_quiet (quiet_send _)).andThen fun _ => ?_
    split
    · exact works_pure _
    · refine Works.andThen (works_forM fun hash => ?_) fun _ => ih
      exact (works_quiet (quiet_talk (talk_basisObject _))).andThen fun _ => (works_quiet (quiet_receiveObject _ _ _)).andThen
        fun _ => works_objectReceived _

theorem works_pullObjects (peer : String) : Works P replica approve settle (pullObjects P W peer) :=
  (works_quiet (quiet_look _)).andThen fun _ => works_pullPages _ _

theorem works_opening (peer : String) : Works P replica approve settle (opening P peer : Io (Share β) Unit) := by
  refine (works_quiet (quiet_authorize _ _)).andThen fun _ => (works_quiet quiet_open).andThen fun _ =>
    (works_quiet (quiet_authorize _ _)).andThen fun _ => (works_quiet (quiet_look _)).andThen fun pending => ?_
  split
  · exact (works_pure ()).andThen fun _ => works_beginIncoming
  · exact works_scanFalse.andThen fun _ => (works_pure ()).andThen fun _ => works_beginIncoming

theorem works_transfer (peer : String) (client : Bool) (rounds : ℕ) (mine theirs : Hello) :
    Works P replica approve settle (transfer P W peer client rounds mine theirs) := by
  unfold transfer readMetadata
  split
  · exact (works_quiet (quiet_talk (talk_sendMetadata (fun _ => trivial) _ _ _))).andThen fun _ => (works_readPages _ _ _ _).andThen fun _ =>
      (works_quiet (quiet_talk (talk_serveObjects W.all (fun _ => trivial) _ _))).andThen fun _ => works_pullObjects _
  · exact (works_readPages _ _ _ _).andThen fun _ => (works_quiet (quiet_talk (talk_sendMetadata (fun _ => trivial) _ _ _))).andThen fun _ =>
      (works_pullObjects _).andThen fun _ => works_quiet (quiet_talk (talk_serveObjects W.all (fun _ => trivial) _ _))

theorem works_conclude (peer : String) (theirs : Hello) : Works P replica approve true (conclude P W peer theirs) := by
  have hend : Works P replica approve true (do
      authorize peer false
      send (.text "applied")
      let applied ← read W.text
      ensure (applied = "applied") "peer did not apply changes"
      transaction fun i => .ok (i.setCursor peer theirs.epoch theirs.sequence) : Io (Share β) Unit) :=
    (works_quiet (quiet_authorize _ _)).andThen fun _ => (works_quiet (quiet_send _)).andThen fun _ =>
      (works_quiet (quiet_read _)).andThen fun _ => (works_quiet (quiet_lift _)).andThen fun _ =>
        works_settles fun i => ⟨⟨rfl, rfl, rfl, rfl, fun _ _ h => .inl h, fun _ h => .inl h⟩, id⟩
  refine (works_quiet (quiet_look _)).andThen fun config => ?_
  split
  · exact (works_commitIncoming _).andThen fun _ => hend
  · exact (works_pure ()).andThen fun _ => hend

theorem works_session (peer : String) (client : Bool) (rounds : ℕ) :
    Works P replica approve true (session P W peer client rounds) :=
  (works_opening _).andThen fun _ => (works_quiet (quiet_talk (talk_handshake W.all (fun _ => trivial) _))).andThen fun _ =>
    (works_transfer _ _ _ _ _).andThen fun _ => works_conclude _ _

/-- The row that is read is the one of the index. -/
theorem own_local (path text : String) : Triple (terms P replica approve settle) (Own replica i)
    (local_ path text : Io (Share β) Row)
    (outcome (fun l s => Own replica i s ∧ i.entries[path]? = some l) fun _ => Own replica i) := by
  refine Triple.andThen (own_look (V := fun found => i.entries[path]? = found) fun s hs => by rw [← hs.2])
    fun found => Triple.fact fun hfound => ?_
  cases found with
  | none => exact Triple.ofExcept stable_own (fun _ h => h.1) fun _ hs => hs
  | some l => exact Triple.ofExcept stable_own (fun _ h => h.1) fun _ hs => ⟨hs, hfound⟩

theorem works_choose (path revision : String) (historical : Bool) :
    Works P replica true settle (choose P path revision historical : Io (Share β) Unit) := by
  refine (works_quiet (quiet_lift _)).andThen fun _ => works_scanFalse.andThen fun _ => works_iff.mpr fun i => ?_
  refine WorksOn.seq (own_local _ _) fun l hl => WorksOn.seq (own_quiet (quiet_talk (talk_findRevision _ _ _ _))) fun chosen _ => ?_
  have hrest : WorksOn P replica true settle i (do
      let config ← Fallible.look fun s : Share β => s.config
      let versions ← l.versions.edit P config.replica chosen.content
      let actual ← Root.content P path
      transaction fun i => i.choose P path versions actual l.observed
      let l ← local_ path "unknown path"
      applyLocal P path l : Io (Share β) Unit) := by
    refine WorksOn.seq (own_look (V := fun c => c.replica = replica) fun s hs => hs.1.1) fun config hc => ?_
    refine WorksOn.seq own_lift fun versions hv => WorksOn.seq (own_quiet (tries_content P quiet_files path))
      fun actual ha => ?_
    obtain rfl := hc
    refine WorksOn.andThen (worksOn_transaction fun i' h => ?_) fun _ => works_iff.mpr fun j =>
      WorksOn.seq (own_local _ _) fun l' hl' => worksOn_applyLocal hl'
    exact Index.choose_chain hl (fun _ => rfl) hv ha h
  split
  · exact WorksOn.seq (own_quiet (quiet_lift _)) fun _ _ => WorksOn.seq (own_quiet (quiet_objectManifest _)) fun _ _ =>
      WorksOn.seq (own_quiet (quiet_lift _)) fun _ _ => hrest
  · exact hrest

theorem works_approveDeletion (path : String) (expected : Versions) :
    Works P replica true settle (approveDeletion P path expected : Io (Share β) Unit) := by
  refine (works_quiet (quiet_lift _)).andThen fun _ => works_scanFalse.andThen fun _ => works_iff.mpr fun i => ?_
  refine WorksOn.seq (own_local _ _) fun l hl => WorksOn.seq (own_quiet (quiet_look _)) fun pending _ =>
    WorksOn.seq (own_quiet (quiet_lift _)) fun _ _ => WorksOn.seq (own_quiet quiet_checkRoot) fun _ _ =>
      WorksOn.seq (own_quiet (tries_content P quiet_files path)) fun actual _ =>
        WorksOn.seq (own_quiet (quiet_lift _)) fun _ _ => ?_
  refine WorksOn.seq (own_look (V := fun c => c.replica = replica) fun s hs => hs.1.1) fun config hc => ?_
  obtain rfl := hc
  exact worksOn_transaction fun i' h => Index.approve_chain hl h

theorem works_activateDevice (mode : Mode) (offline : Bool) :
    Works P replica approve true (activateDevice P mode offline : Io (Share β) Unit) := by
  have hmode : Works P replica approve true
      (Fallible.act fun s => (.ok (), { s with config := { s.config with mode := mode } }) : Io (Share β) Unit) :=
    works_quiet (V := fun _ => True) (Tries.act fun _ => ⟨rfl, rfl, rfl, id⟩)
  refine (works_quiet quiet_open).andThen fun _ => (works_quiet (quiet_look _)).andThen fun pending =>
    (works_quiet (quiet_lift _)).andThen fun _ => ?_
  split
  · exact (works_settles (f := fun i => { i with recoveryPending := false }) fun i =>
      ⟨⟨rfl, rfl, rfl, rfl, fun _ _ h => .inl h, fun _ h => .inl h⟩, fun h => by cases h⟩).andThen fun _ => hmode
  · exact (works_pure ()).andThen fun _ => hmode

end works

end Share
end Everywhere

