import Everywhere.Share.Steps

/-!
# Which way changes flow

The mode of a share says which way changes flow. It is looked at in several places: when records are sent,
when they are taken in, when objects are served, and when what was taken in is merged.

* `send_only_unmoved` — **a send-only share takes nothing in**: whatever a peer sends, the rows, the kept
  revisions, the missing paths, the objects and the folder are after a session what they were after its opening.
* `receive_only_silent` — **a receive-only share lets nothing out**: whatever happens, it sends no record, no
  manifest and no block of an object.

For the first, opening a share does not depend on what the peer sends (`blind_opening`); for both, each step
is looked at once (`Discreet`), and the rest is a matter of what the mode forbids.
-/

namespace Everywhere

open Library

/-- The message says something of the contents of a share: a record, a manifest or a block. -/
def Message.exports : Message → Prop
  | .metadata (.page _) | .manifest _ | .block _ _ => True
  | .hello _ | .metadata .end_ | .objects _ | .wanted _ | .received _ | .text _ => False

namespace Share

variable {β : Type} {P : Platform} {W : Wire β} {may : Message → Prop} {hears : Bool}

/-- The share when the peer has sent something. -/
def attach (input : β) (s : Share β) : Share β := { s with input := input }

/-- A step that sends nothing but some messages, does not change the configuration, and does not depend on what the
peer sends unless it may hear it. -/
structure Discreet (may : Message → Prop) (hears : Bool) (γ : Type) (act : Share β → γ × Share β) : Prop where
  /-- The configuration stays. -/
  config : ∀ s, (act s).2.config = s.config
  /-- What is sent. -/
  output : ∀ s, ∃ ms, (act s).2.output = s.output ++ ms ∧ ∀ m ∈ ms, may m
  /-- What the peer sends does not matter. -/
  input : hears = false → ∀ s b, act (attach b s) = ((act s).1, attach b (act s).2)

/-! ### Every step is discreet -/

theorem discreet_mute {γ : Type} {act : Share β → γ × Share β} (hc : ∀ s, (act s).2.config = s.config)
    (ho : ∀ s, (act s).2.output = s.output) (hi : ∀ s b, act (attach b s) = ((act s).1, attach b (act s).2)) :
    Discreet may hears γ act :=
  ⟨hc, fun s => ⟨[], by simp [ho s], by simp⟩, fun _ => hi⟩

theorem discreet_call {α : Type} (op : Files → Files.Outcome α) : Discreet (β := β) may hears (Except Error α)
    fun s => ((op (HasFiles.files s)).1.mapError .io, HasFiles.setFiles (op (HasFiles.files s)).2 s) :=
  discreet_mute (fun _ => rfl) (fun _ => rfl) fun _ _ => rfl

theorem Talk.discreet {γ : Type} {act : Share β → γ × Share β} (h : Talk may anyhow γ act) : Discreet may true γ act := by
  cases h with
  | look f => exact ⟨fun _ => rfl, fun s => ⟨[], by simp, by simp⟩, fun h => by cases h⟩
  | send m hm => exact ⟨fun _ => rfl, fun s => ⟨[m], rfl, by simpa using hm⟩, fun h => by cases h⟩
  | read f _ => exact ⟨fun _ => rfl, fun s => ⟨[], by simp, by simp⟩, fun h => by cases h⟩

theorem discreet_talk {α : Type} {p : Io (Share β) α} (h : Only (Talk may anyhow) p) : Only (Discreet may true) p :=
  h.mono fun _ _ h => h.discreet

theorem discreet_look {α : Type} {f : Share β → α} (hf : ∀ s b, f (attach b s) = f s) :
    Only (Discreet may hears) (Fallible.look f : Io (Share β) α) :=
  Only.act (discreet_mute (fun _ => rfl) (fun _ => rfl) fun s b => by rw [hf])

theorem discreet_transaction (f : Index → Result Index) :
    Only (Discreet may hears) (transaction f : Io (Share β) Unit) := by
  refine Only.act (discreet_mute (fun s => ?_) (fun s => ?_) fun s b => ?_)
  · cases h : f s.index <;> rfl
  · cases h : f s.index <;> rfl
  · dsimp only [attach]
    cases h : f s.index <;> rfl

theorem discreet_authorize (peer : String) (writing : Bool) :
    Only (Discreet may hears) (authorize peer writing : Io (Share β) Unit) :=
  (discreet_look fun _ _ => rfl).andThen fun _ => (only_lift _).andThen fun _ => only_lift _

theorem discreet_checkRoot : Only (Discreet may hears) (checkRoot : Io (Share β) Unit) :=
  only_checkRoot (fun f hf => discreet_mute (fun _ => rfl) (fun _ => rfl) fun s b => by rw [attach, hf])
    discreet_call

theorem discreet_open : Only (Discreet may hears) (open_ P : Io (Share β) Unit) :=
  only_open (fun f hf => discreet_mute (fun _ => rfl) (fun _ => rfl) fun s b => by rw [attach, hf])
    discreet_call

theorem discreet_readObject (hash : String) : Only (Discreet may hears) (readObject hash : Io (Share β) Bytes) := by
  refine (discreet_look fun _ _ => rfl).andThen fun bytes => ?_
  split
  · exact only_pure _
  · exact only_fail _

theorem discreet_objectManifest (hash : String) :
    Only (Discreet may hears) (objectManifest P hash : Io (Share β) Manifest) :=
  (discreet_readObject hash).andThen fun _ => (only_lift _).andThen fun _ => only_pure _

theorem discreet_createObject (hash : String) (bytes : Bytes) :
    Only (Discreet may hears) (createObject hash bytes : Io (Share β) Unit) := by
  refine Only.act (discreet_mute (fun s => ?_) (fun s => ?_) fun s b => ?_)
  · cases h : s.objects[hash]? <;> rfl
  · cases h : s.objects[hash]? <;> rfl
  · dsimp only [attach]
    cases h : s.objects[hash]? <;> rfl

theorem discreet_capture (path : String) : Only (Discreet may hears) (capture P path : Io (Share β) Content) := by
  refine (only_file discreet_call path).andThen fun file => (only_fromFile P discreet_call file).andThen
    fun manifest => (only_lift _).andThen fun object => (discreet_look fun _ _ => rfl).andThen fun found => ?_
  split
  · exact (discreet_objectManifest object).andThen fun _ => (only_lift _).andThen fun _ => only_pure _
  · exact (only_file discreet_call path).andThen fun _ => (only_call discreet_call _).andThen fun _ =>
      (only_lift _).andThen fun _ => (discreet_createObject _ _).andThen fun _ => only_pure _

theorem discreet_recordSeen (path : String) (content : Content) :
    Only (Discreet may hears) (recordSeen P path content : Io (Share β) Unit) := by
  refine Only.act (discreet_mute (fun s => ?_) (fun s => ?_) fun s b => ?_)
  · split_ifs <;> rfl
  · split_ifs <;> rfl
  · by_cases h : ∀ other ∈ s.seen.keys, collisionKey P other ≠ collisionKey P path
    · rw [if_pos h]
      exact if_pos h
    · rw [if_neg h]
      exact if_neg h

theorem discreet_visit : Only (Discreet may hears) (Root.visit fun path isDir => do
    let content ← if isDir then pure Content.directory else capture P path
    recordSeen P path content : Io (Share β) Unit) := by
  refine only_visit discreet_call fun path isDir => ?_
  split
  · exact (only_pure Content.directory).andThen fun _ => discreet_recordSeen _ _
  · exact (discreet_capture path).andThen fun _ => discreet_recordSeen _ _

theorem discreet_scanInner (approveDeletes : Bool) :
    Only (Discreet may hears) (scanInner P approveDeletes : Io (Share β) ScanReport) :=
  discreet_checkRoot.andThen fun _ => (only_recover P discreet_call).andThen fun _ =>
    (Only.act (discreet_mute (fun _ => rfl) (fun _ => rfl) fun _ _ => rfl)).andThen fun _ =>
      discreet_visit.andThen fun _ => discreet_checkRoot.andThen fun _ =>
        (discreet_look fun _ _ => rfl).andThen fun _ => (only_lift _).andThen fun _ =>
          discreet_checkRoot.andThen fun _ => (discreet_transaction _).andThen fun _ => only_pure _

theorem discreet_scan (approveDeletes : Bool) :
    Only (Discreet may hears) (scan P approveDeletes : Io (Share β) ScanReport) :=
  (discreet_look fun _ _ => rfl).andThen fun _ => (only_lift _).andThen fun _ => discreet_scanInner _

theorem discreet_beginIncoming : Only (Discreet may hears) (beginIncoming : Io (Share β) Unit) :=
  discreet_transaction _

theorem discreet_joinStaged : Only (Discreet may hears) (joinStaged P : Io (Share β) Unit) := discreet_transaction _

theorem discreet_opening (peer : String) : Only (Discreet may hears) (opening P peer : Io (Share β) Unit) := by
  refine (discreet_authorize _ _).andThen fun _ => discreet_open.andThen fun _ => (discreet_authorize _ _).andThen
    fun _ => (discreet_look fun _ _ => rfl).andThen fun pending => ?_
  split
  · exact (only_pure ()).andThen fun _ => discreet_beginIncoming
  · exact (discreet_scan _).andThen fun _ => (only_pure ()).andThen fun _ => discreet_beginIncoming

theorem discreet_stage (peer : String) (records : List Record) :
    Only (Discreet may hears) (stage P peer records : Io (Share β) Unit) :=
  (discreet_authorize _ _).andThen fun _ => (only_lift _).andThen fun _ => (discreet_look fun _ _ => rfl).andThen
    fun _ => discreet_transaction _

theorem discreet_readPages (peer : String) (theirs : Hello) (fuel last : ℕ) :
    Only (Discreet may true) (readPages P W peer theirs fuel last) := by
  induction fuel generalizing last with
  | zero => exact only_fail _
  | succ fuel ih =>
    refine (discreet_authorize _ _).andThen fun _ => (discreet_talk (talk_read trivial)).andThen fun m => ?_
    split
    · exact only_pure _
    · exact (only_lift _).andThen fun _ => (only_lift _).andThen fun _ => (discreet_stage _ _).andThen fun _ => ih _

theorem discreet_pullPages (hobjects : ∀ hs, may (.objects hs)) (hwanted : ∀ ks, may (.wanted ks))
    (hreceived : ∀ k, may (.received k)) (htext : ∀ t, may (.text t)) (peer : String) (fuel : ℕ) :
    Only (Discreet may true) (pullPages P W peer fuel) :=
  only_pullPages (fun _ _ h => h.discreet) (fun _ _ => discreet_mute (fun _ => rfl) (fun _ => rfl) fun _ _ => rfl)
    (fun _ => discreet_transaction _) W.all hobjects hwanted hreceived htext peer fuel

theorem discreet_applyLocal (path : String) (l : Row) :
    Only (Discreet may hears) (applyLocal P path l : Io (Share β) Unit) := by
  have hrest : ∀ (selected : Content) (object : Option String), Only (Discreet may hears) (do
      checkRoot
      let id ← randomId
      Root.apply P id path l.materialized selected (object.map readObject)
      transaction fun i => i.applied P path l.versions selected : Io (Share β) Unit) := by
    intro selected object
    refine discreet_checkRoot.andThen fun _ =>
      (Only.act (discreet_mute (fun _ => rfl) (fun _ => rfl) fun _ _ => rfl)).andThen fun id =>
        (only_apply P discreet_call _ _ _ _ fun input hin => ?_).andThen fun _ => discreet_transaction _
    obtain ⟨hash, -, rfl⟩ := Option.mem_map.mp hin
    exact discreet_readObject hash
  unfold applyLocal
  split
  · refine (only_pure _).andThen fun selected => ?_
    beta_reduce
    split
    · exact (only_lift _).andThen fun object => (only_pure (some object)).andThen fun _ => hrest _ _
    · exact (only_pure none).andThen fun _ => hrest _ _
  · refine (only_fail _).andThen fun selected => ?_
    beta_reduce
    split
    · exact (only_lift _).andThen fun object => (only_pure (some object)).andThen fun _ => hrest _ _
    · exact (only_pure none).andThen fun _ => hrest _ _

theorem discreet_applyPages (peer : String) (fuel : ℕ) :
    Only (Discreet may hears) (applyPages P peer fuel : Io (Share β) Unit) := by
  induction fuel with
  | zero => exact only_fail _
  | succ fuel ih =>
    refine (discreet_look fun _ _ => rfl).andThen fun paths => ?_
    split
    · exact only_pure _
    · refine Only.andThen (Only.forM fun path _ => (discreet_look fun _ _ => rfl).andThen fun found => ?_) fun _ => ih
      split
      · exact (discreet_authorize _ _).andThen fun _ => discreet_applyLocal _ _
      · exact only_pure _

theorem discreet_commitIncoming (peer : String) :
    Only (Discreet may hears) (commitIncoming P peer : Io (Share β) Unit) := by
  have hpending : Only (Discreet may hears) (applyPending P peer : Io (Share β) Unit) :=
    (discreet_look fun _ _ => rfl).andThen fun _ => discreet_applyPages _ _
  refine (discreet_authorize _ _).andThen fun _ => discreet_checkRoot.andThen fun _ =>
    ((only_lift _).andThen fun _ => discreet_look fun _ _ => rfl).andThen fun _ => (only_lift _).andThen fun _ =>
      (discreet_look fun _ _ => rfl).andThen fun recovering => ?_
  cases recovering with
  | true =>
    simp only [↓reduceIte]
    exact discreet_joinStaged.andThen fun _ => (discreet_scanInner _).andThen fun _ => hpending.andThen fun _ =>
      discreet_transaction _
  | false =>
    simp only [Bool.false_eq_true, ↓reduceIte]
    exact (discreet_scan _).andThen fun _ => discreet_joinStaged.andThen fun _ => hpending.andThen fun _ => only_pure ()

/-! ### What a send-only share takes in -/

/-- Opening a share does not depend on what the peer sends. -/
theorem blind_opening (peer : String) (input : β) (s : Share β) :
    Fallible.run (opening P peer) (attach input s) =
      ((Fallible.run (opening P peer) s).1, attach input (Fallible.run (opening P peer) s).2) :=
  Only.run_comm ((@discreet_opening _ _ (fun _ => True) false peer).mono fun _ _ h s =>
    h.input rfl s input) s

/-- Nothing that a peer could change has changed. -/
structure Unmoved (s s' : Share β) : Prop where
  /-- The rows. -/
  entries : s'.index.entries = s.index.entries
  /-- The revisions kept. -/
  history : s'.index.history = s.index.history
  /-- The missing paths. -/
  pending : s'.index.pending = s.index.pending
  /-- The objects. -/
  objects : s'.objects = s.objects
  /-- The folder. -/
  files : s'.files = s.files

/-- Only the peer acts: it sends something more. -/
def Listens (s s' : Share β) : Prop := ∃ input, s' = attach input s

/-- A send-only share during a session: nothing has changed, and no object is to be fetched. -/
structure Exporting (before s : Share β) : Prop where
  /-- Nothing has changed. -/
  unmoved : Unmoved before s
  /-- The mode. -/
  mode : s.config.mode = .sendOnly
  /-- Nothing is to be fetched. -/
  needed : s.index.needed = ∅

/-- The terms of a send-only share during a session. -/
def exporting (before : Share β) : Contract (Share β) := ⟨Listens, fun _ _ => True, Exporting before⟩

section exporting

variable {before : Share β}

/-- The program changes nothing of a send-only share. -/
def Exports (before : Share β) {α : Type} (p : Io (Share β) α) : Prop :=
  Triple (exporting before) (Exporting before) p (outcome (fun _ => Exporting before) fun _ => Exporting before)

theorem stable_exporting : Stable (exporting before) (Exporting before) := by
  rintro s s' ⟨input, rfl⟩ h
  exact ⟨⟨h.unmoved.entries, h.unmoved.history, h.unmoved.pending, h.unmoved.objects, h.unmoved.files⟩, h.mode,
    h.needed⟩

theorem exports_tries {α : Type} {p : Io (Share β) α} {V : α → Prop}
    (h : Tries (fun s s' => Exporting before s → Exporting before s') V p) : Exports before p :=
  (Tries.triple h stable_exporting (fun _ h => h) fun _ _ hs hstep => ⟨trivial, hstep hs⟩).conseq (fun _ h => h)
    fun r s hr => by
      cases r with
      | error e => exact hr
      | ok a => exact hr.1

theorem exports_talk {α : Type} {p : Io (Share β) α} (h : Only (Talk (fun _ => True) anyhow) p) : Exports before p :=
  exports_tries (Tries.ofOnly (h.mono fun γ act ha s hs => by
    cases ha with
    | look f => exact hs
    | send m _ => exact ⟨⟨hs.unmoved.entries, hs.unmoved.history, hs.unmoved.pending, hs.unmoved.objects,
        hs.unmoved.files⟩, hs.mode, hs.needed⟩
    | read f => exact ⟨⟨hs.unmoved.entries, hs.unmoved.history, hs.unmoved.pending, hs.unmoved.objects,
        hs.unmoved.files⟩, hs.mode, hs.needed⟩))

theorem Exports.andThen {α γ : Type} {p : Io (Share β) α} {f : α → Io (Share β) γ} (h : Exports before p)
    (hf : ∀ a, Exports before (f a)) : Exports before (p >>= f) := Triple.andThen h hf

/-- What is read of a send-only share is as the terms say. -/
theorem exports_look {α : Type} {V : α → Prop} {f : Share β → α} (hf : ∀ s, Exporting before s → V (f s)) :
    Triple (exporting before) (Exporting before) (Fallible.look f : Io (Share β) α)
      (outcome (fun a s => Exporting before s ∧ V a) fun _ => Exporting before) :=
  Triple.look stable_exporting (fun _ h => h) (fun _ => trivial) hf

/-- A send-only share may not be written to. -/
theorem exports_writing {γ : Type} (peer : String) (f : Unit → Io (Share β) γ) :
    Exports before (authorize peer true >>= f) := by
  refine Triple.andThen (Q := fun _ _ => False) ?_ fun _ s h => h.elim
  refine Triple.seq (exports_look (V := fun c => c.mode = .sendOnly) fun s hs => hs.mode) fun c hc => ?_
  refine Triple.andThen (exports_talk (only_lift _)) fun _ => ?_
  refine Triple.ofExcept stable_exporting (fun _ h => h) fun s hs => ?_
  rw [ensure, if_neg (by simp [hc])]
  exact hs

theorem exports_readPages (peer : String) (theirs : Hello) (fuel last : ℕ) :
    Exports before (readPages P W peer theirs fuel last) := by
  induction fuel generalizing last with
  | zero => exact exports_talk (only_fail _)
  | succ fuel ih =>
    refine (exports_talk (talk_authorize _ _)).andThen fun _ => (exports_talk (talk_read trivial)).andThen fun m => ?_
    split
    · exact exports_talk (only_pure _)
    · exact (exports_talk (only_lift _)).andThen fun _ => (exports_talk (only_lift _)).andThen fun _ =>
        (exports_writing peer _).andThen fun _ => ih _

theorem exports_pullObjects (peer : String) : Exports before (pullObjects P W peer) := by
  have hmissing : Triple (exporting before) (Exporting before) (missingObjects 16 : Io (Share β) (List String))
      (outcome (fun missing s => Exporting before s ∧ missing = []) fun _ => Exporting before) :=
    Triple.andThen (exports_talk (only_lift _)) fun _ => exports_look fun s hs => by rw [hs.needed]; rfl
  refine (exports_talk (talk_look _)).andThen fun n => ?_
  refine Triple.seq hmissing fun missing hm => (exports_talk (talk_send trivial)).andThen fun _ => ?_
  rw [if_pos hm]
  exact exports_talk (only_pure _)

theorem exports_transfer (peer : String) (client : Bool) (rounds : ℕ) (mine theirs : Hello) :
    Exports before (transfer P W peer client rounds mine theirs) := by
  unfold transfer readMetadata
  split
  · exact (exports_talk (talk_sendMetadata (fun _ => trivial) _ _ _)).andThen fun _ =>
      (exports_readPages _ _ _ _).andThen fun _ => (exports_talk (talk_serveObjects W.all (fun _ => trivial) _ _)).andThen
        fun _ => exports_pullObjects _
  · exact (exports_readPages _ _ _ _).andThen fun _ =>
      (exports_talk (talk_sendMetadata (fun _ => trivial) _ _ _)).andThen fun _ => (exports_pullObjects _).andThen
        fun _ => exports_talk (talk_serveObjects W.all (fun _ => trivial) _ _)

theorem exports_conclude (peer : String) (theirs : Hello) : Exports before (conclude P W peer theirs) := by
  refine Triple.seq (exports_look (V := fun c => c.mode = .sendOnly) fun s hs => hs.mode) fun c hc => ?_
  rw [if_neg (by simp [hc])]
  change Exports before (authorize peer false >>= fun _ => _)
  refine (exports_talk (talk_authorize _ _)).andThen fun _ => (exports_talk (talk_send trivial)).andThen fun _ =>
    (exports_talk (talk_read trivial)).andThen fun _ => (exports_talk (only_lift _)).andThen fun _ =>
      exports_tries (V := fun _ => True) (Tries.act fun s hs => ?_)
  exact ⟨⟨hs.unmoved.entries, hs.unmoved.history, hs.unmoved.pending, hs.unmoved.objects, hs.unmoved.files⟩,
    hs.mode, hs.needed⟩

/-- A send-only share takes nothing in while it exchanges messages with a peer. -/
theorem exports_exchange (peer : String) (client : Bool) (rounds : ℕ) :
    Exports before (exchange P W peer client rounds) :=
  (exports_talk (talk_handshake W.all (fun _ => trivial) _)).andThen fun _ => (exports_transfer _ _ _ _ _).andThen fun _ =>
    exports_conclude _ _

end exporting

/-- Opening a share does not change its configuration. -/
theorem opening_config (peer : String) (s : Share β) : (Fallible.run (opening P peer) s).2.config = s.config := by
  have h : Tries (fun s s' : Share β => s'.config = s.config) (fun _ => True) (opening P peer) :=
    Tries.ofOnly ((@discreet_opening _ _ (fun _ => True) false peer).mono fun _ _ h => h.config)
  have hstar := (Does.run h s).1
  change (Prog.run (opening P peer) s).2.config = s.config
  generalize (Prog.run (opening P peer) s).2 = t at hstar
  induction hstar with
  | refl => rfl
  | tail _ hstep ih => exact hstep.trans ih

/-- When a share has been opened for a session, nothing is to be fetched yet. -/
theorem opening_needed {peer : String} {s s' : Share β} (h : Fallible.run (opening P peer) s = (.ok (), s')) :
    s'.index.needed = ∅ := by
  have hbegin : ∀ {t : Share β}, Fallible.run beginIncoming t = (.ok (), s') → s'.index.needed = ∅ := by
    intro t ht
    obtain rfl := (Prod.mk.inj ht).2
    rfl
  obtain ⟨_, _, -, h⟩ := Fallible.run_bind_eq_ok.mp h
  obtain ⟨_, _, -, h⟩ := Fallible.run_bind_eq_ok.mp h
  obtain ⟨_, _, -, h⟩ := Fallible.run_bind_eq_ok.mp h
  obtain ⟨pending, t, -, h⟩ := Fallible.run_bind_eq_ok.mp h
  cases pending with
  | true => exact hbegin h
  | false =>
    obtain ⟨_, _, -, h⟩ := Fallible.run_bind_eq_ok.mp h
    exact hbegin h

/-- **A send-only share takes nothing in.** Whatever a peer sends in a session, at once or in the course of it:
wherever the session has got to after its opening, and when it has ended, the rows, the kept revisions, the missing
paths, the objects and the folder are what they were after the opening, which does not depend on what the peer
sends. -/
theorem send_only_unmoved (P : Platform) (W : Wire β) (s : Share β) (hmode : s.config.mode = .sendOnly)
    (peer : String) (client : Bool) (rounds : ℕ) (input : β) :
    Unmoved (Fallible.run (opening P peer) s).2 (Fallible.run (session P W peer client rounds) (attach input s)).2 ∧
      ∀ (q : Io (Share β) Unit) (s' : Share β), (Fallible.run (opening P peer) s).1 = .ok () →
        Prog.Reaches Listens (exchange P W peer client rounds) (attach input (Fallible.run (opening P peer) s).2) q s' →
        Unmoved (Fallible.run (opening P peer) s).2 s' := by
  have hblind := blind_opening (P := P) peer input s
  have hconfig := opening_config (P := P) peer s
  generalize hopen : Fallible.run (opening P peer) s = r at hblind hconfig
  obtain ⟨r, o⟩ := r
  have hstart : r = .ok () → Exporting o (attach input o) := by
    rintro rfl
    refine ⟨⟨rfl, rfl, rfl, rfl, rfl⟩, ?_, @opening_needed _ _ _ _ (attach input o) hblind⟩
    exact (congrArg Config.mode hconfig).trans hmode
  refine ⟨?_, fun q s' hr h => ?_⟩
  · change Unmoved o (Fallible.run (opening P peer >>= fun _ => exchange P W peer client rounds) (attach input s)).2
    rw [Fallible.run_bind, hblind]
    cases r with
    | error e => exact ⟨rfl, rfl, rfl, rfl, rfl⟩
    | ok u =>
      exact ((exports_exchange (P := P) (W := W) peer client rounds _ (hstart rfl)).reaches
        (Prog.reaches_run _ _ _)).inv.unmoved
  · exact ((exports_exchange peer client rounds _ (hstart hr)).reaches h).inv.unmoved

/-! ### What a receive-only share lets out -/

/-- A receive-only share: nothing that it has sent since says anything of its contents. -/
structure Receiving (before : List Message) (s : Share β) : Prop where
  /-- The mode. -/
  mode : s.config.mode = .receiveOnly
  /-- What was sent. -/
  output : ∃ ms, s.output = before ++ ms ∧ ∀ m ∈ ms, ¬ m.exports

/-- The terms of a receive-only share during a session. -/
def receiving (before : List Message) : Contract (Share β) := ⟨Outside, fun _ _ => True, Receiving before⟩

section receiving

variable {before : List Message}

/-- The program lets nothing out of a receive-only share. -/
def Receives (before : List Message) {α : Type} (p : Io (Share β) α) : Prop :=
  Triple (receiving before) (Receiving before) p (outcome (fun _ => Receiving before) fun _ => Receiving before)

theorem stable_receiving : Stable (receiving before) (Receiving (β := β) before) :=
  fun _ _ h hs => ⟨h.mode.trans hs.mode, by rw [h.output]; exact hs.output⟩

theorem receives_discreet {α : Type} {p : Io (Share β) α} (h : Only (Discreet (fun m => ¬ m.exports) true) p) :
    Receives before p := by
  have htries : Tries (fun s s' => Receiving before s → Receiving before s') (fun _ => True) p :=
    Tries.ofOnly (h.mono fun γ act ha s hs => by
      obtain ⟨ms, hms, hno⟩ := hs.output
      obtain ⟨ms', hms', hno'⟩ := ha.output s
      refine ⟨(congrArg Config.mode (ha.config s)).trans hs.mode, ms ++ ms', ?_, fun m hm => ?_⟩
      · rw [hms', hms, List.append_assoc]
      · exact (List.mem_append.mp hm).elim (hno m) (hno' m))
  exact (Tries.triple htries stable_receiving (fun _ h => h) fun _ _ hs hstep => ⟨trivial, hstep hs⟩).conseq
    (fun _ h => h) fun r s hr => by
      cases r with
      | error e => exact hr
      | ok a => exact hr.1

theorem receives_talk {α : Type} {p : Io (Share β) α} (h : Only (Talk (fun m => ¬ m.exports) anyhow) p) : Receives before p :=
  receives_discreet (discreet_talk h)

theorem Receives.andThen {α γ : Type} {p : Io (Share β) α} {f : α → Io (Share β) γ} (h : Receives before p)
    (hf : ∀ a, Receives before (f a)) : Receives before (p >>= f) := Triple.andThen h hf

theorem receives_look {α : Type} {V : α → Prop} {f : Share β → α} (hf : ∀ s, Receiving before s → V (f s)) :
    Triple (receiving before) (Receiving before) (Fallible.look f : Io (Share β) α)
      (outcome (fun a s => Receiving before s ∧ V a) fun _ => Receiving before) :=
  Triple.look stable_receiving (fun _ h => h) (fun _ => trivial) hf

/-- The first message says that the share is receive-only. -/
theorem receives_handshake (peer : String) : Triple (receiving before) (Receiving before) (handshake W peer)
    (outcome (fun r s => Receiving before s ∧ r.1.mode = .receiveOnly) fun _ => Receiving before) := by
  refine Triple.seq (receives_look (V := fun h => h.mode = .receiveOnly) fun s hs => hs.mode) fun mine hm => ?_
  refine Triple.andThen (receives_talk (talk_send id)) fun _ => Triple.andThen (receives_talk (talk_read trivial)) fun theirs =>
    Triple.andThen (receives_talk (only_lift _)) fun _ => Triple.andThen (receives_talk (talk_look _)) fun _ =>
      Triple.andThen (receives_talk (only_lift _)) fun _ => ?_
  exact Triple.ofExcept stable_receiving (fun _ h => h) fun s hs => ⟨hs, hm⟩

theorem receives_sendMetadata {peer : String} {mine theirs : Hello} (hm : mine.mode = .receiveOnly) :
    Receives before (sendMetadata peer mine theirs : Io (Share β) Unit) := by
  unfold sendMetadata
  rw [if_neg (by simp [hm])]
  exact receives_talk (talk_send id)

theorem receives_serveObjects (peer : String) (rounds : ℕ) : Receives before (serveObjects P W peer rounds) := by
  cases rounds with
  | zero => exact receives_talk (only_fail _)
  | succ rounds =>
    refine (receives_talk (talk_read trivial)).andThen fun requested => (receives_talk (only_lift _)).andThen fun _ => ?_
    split
    · exact receives_talk (only_pure _)
    · refine Triple.seq (receives_look (V := fun c => c.mode = .receiveOnly) fun s hs => hs.mode) fun c hc => ?_
      -- the check fails before anything is sent
      refine Triple.andThen (Q := fun _ _ => False) ?_ fun _ s h => h.elim
      refine Triple.ofExcept stable_receiving (fun _ h => h) fun s hs => ?_
      rw [ensure, if_neg (by simp [hc])]
      exact hs

theorem receives_pullObjects (peer : String) : Receives before (pullObjects P W peer) :=
  (receives_talk (talk_look _)).andThen fun _ =>
    receives_discreet (discreet_pullPages (fun _ => id) (fun _ => id) (fun _ => id) (fun _ => id) _ _)

theorem receives_transfer {peer : String} {client : Bool} {rounds : ℕ} {mine theirs : Hello}
    (hm : mine.mode = .receiveOnly) : Receives before (transfer P W peer client rounds mine theirs) := by
  unfold transfer readMetadata
  split
  · exact (receives_sendMetadata hm).andThen fun _ => (receives_discreet (discreet_readPages _ _ _ _)).andThen fun _ =>
      (receives_serveObjects _ _).andThen fun _ => receives_pullObjects _
  · exact (receives_discreet (discreet_readPages _ _ _ _)).andThen fun _ => (receives_sendMetadata hm).andThen fun _ =>
      (receives_pullObjects _).andThen fun _ => receives_serveObjects _ _

theorem receives_conclude (peer : String) (theirs : Hello) : Receives before (conclude P W peer theirs) := by
  have hend : Receives before (do
      authorize peer false
      send (.text "applied")
      let applied ← read W.text
      ensure (applied = "applied") "peer did not apply changes"
      transaction fun i => .ok (i.setCursor peer theirs.epoch theirs.sequence) : Io (Share β) Unit) :=
    (receives_talk (talk_authorize _ _)).andThen fun _ => (receives_talk (talk_send id)).andThen fun _ =>
      (receives_talk (talk_read trivial)).andThen fun _ => (receives_talk (only_lift _)).andThen fun _ =>
        receives_discreet (discreet_transaction _)
  refine (receives_talk (talk_look _)).andThen fun config => ?_
  split
  · exact (receives_discreet (discreet_commitIncoming _)).andThen fun _ => hend
  · exact (receives_talk (only_pure ())).andThen fun _ => hend

/-- A receive-only share lets nothing out in a session. -/
theorem receives_session (peer : String) (client : Bool) (rounds : ℕ) :
    Receives before (session P W peer client rounds) :=
  (receives_discreet (discreet_opening _)).andThen fun _ => Triple.seq (receives_handshake _) fun _ hm =>
    (receives_transfer hm).andThen fun _ => receives_conclude _ _

end receiving

/-- **A receive-only share lets nothing out.** Whatever a peer and others do in a session, and wherever it has got
to, no message that the share has sent in it carries a record, a manifest or a block of an object. -/
theorem receive_only_silent (P : Platform) (W : Wire β) (s : Share β) (hmode : s.config.mode = .receiveOnly)
    (peer : String) (client : Bool) (rounds : ℕ) (q : Io (Share β) Unit) (s' : Share β)
    (h : Prog.Reaches Outside (session P W peer client rounds) s q s') :
    ∃ ms, s'.output = s.output ++ ms ∧ ∀ m ∈ ms, ¬ m.exports :=
  ((@receives_session _ _ _ s.output peer client rounds s ⟨hmode, [], by simp, by simp⟩).reaches h).inv.output

/-- **Direction policy.** A send-only share takes nothing in, whatever two streams a peer may send: in both sessions
the rows, the kept revisions, the missing paths, the objects and the folder end up, and wherever they are stopped
are, as they were after the opening. A receive-only share lets nothing out. -/
theorem direction_policy (P : Platform) (W : Wire β) (s : Share β) (peer : String) (client : Bool) (rounds : ℕ) :
    (s.config.mode = .sendOnly → ∀ input₁ input₂ : β,
      let opened := (Fallible.run (opening P peer) s).2
      Unmoved opened (Fallible.run (session P W peer client rounds) (attach input₁ s)).2 ∧
      Unmoved opened (Fallible.run (session P W peer client rounds) (attach input₂ s)).2 ∧
      ∀ (q : Io (Share β) Unit) (s' : Share β), (Fallible.run (opening P peer) s).1 = .ok () →
        Prog.Reaches Listens (exchange P W peer client rounds) (attach input₁ opened) q s' → Unmoved opened s') ∧
    (s.config.mode = .receiveOnly → ∀ (q : Io (Share β) Unit) (s' : Share β),
      Prog.Reaches Outside (session P W peer client rounds) s q s' →
      ∃ ms, s'.output = s.output ++ ms ∧ ∀ m ∈ ms, ¬ m.exports) := by
  refine ⟨fun hmode input₁ input₂ => ?_, fun hmode q s' h => receive_only_silent P W s hmode peer client rounds q s' h⟩
  obtain ⟨hend, hstop⟩ := send_only_unmoved P W s hmode peer client rounds input₁
  exact ⟨hend, (send_only_unmoved P W s hmode peer client rounds input₂).1, hstop⟩

/-- A new share of a folder with one file, of 32 zeros. -/
def holding (mode : Mode) : Share Mail where
  files := (((Files.empty.setInode 0 ⟨utf8 "marker", 0⟩).add [".everywhere-folder"] (.file 0)).setInode 1
    ⟨List.replicate 32 0, 0⟩).add ["x"] (.file 1)
  mounted := true
  objects := ∅
  index := Index.create "e"
  seen := ∅
  config := ⟨"folder", "device", "e", "marker", mode, ["peer"]⟩
  random _ := "random"
  input := ⟨[], 0⟩
  output := []

/-- A peer that tells of a directory. -/
def telling : List Message :=
  [.hello ⟨"folder", zeroHash, 1, "", 0, .bidirectional⟩,
    .metadata (.page [⟨"y", ⟨[⟨⟨.ofList [("b", 1)]⟩, .directory⟩]⟩, 1⟩]), .metadata .end_, .objects [zeroHash]]

/-- A peer that asks for the file. -/
def fetching : List Message :=
  [.hello ⟨"folder", zeroHash, 1, "", 0, .bidirectional⟩, .metadata .end_, .objects [zeroHash], .wanted [0], .received 0,
    .text "complete", .objects [], .text "applied"]

/-- A send-only share sends its file to a peer that asks for it, and is not moved by one that tells of a directory. A receive-only
share sends nothing of it to a peer that has told of a directory and then asks. -/
theorem direction_policy_asked :
    Unmoved (Fallible.run (opening .sample "peer") (holding .sendOnly)).2
        (Fallible.run (session .sample mail "peer" true 3) (attach ⟨telling, 0⟩ (holding .sendOnly))).2 ∧
      Unmoved (Fallible.run (opening .sample "peer") (holding .sendOnly)).2
        (Fallible.run (session .sample mail "peer" true 3) (attach ⟨fetching, 0⟩ (holding .sendOnly))).2 ∧
      .block 0 (List.replicate 32 0) ∈
        (Fallible.run (session .sample mail "peer" true 3) (attach ⟨fetching, 0⟩ (holding .sendOnly))).2.output ∧
      ∃ ms, (Fallible.run (session .sample mail "peer" true 3) (attach ⟨telling, 0⟩ (holding .receiveOnly))).2.output =
        [] ++ ms ∧ ∀ m ∈ ms, ¬ m.exports := by
  have hsend := (direction_policy .sample mail (holding .sendOnly) "peer" true 3).1 rfl ⟨telling, 0⟩ ⟨fetching, 0⟩
  refine ⟨hsend.1, hsend.2.1, by decide +kernel, ?_⟩
  exact (direction_policy .sample mail (attach ⟨telling, 0⟩ (holding .receiveOnly)) "peer" true 3).2 rfl _ _
    (Prog.reaches_run _ _ _)

end Share
end Everywhere
