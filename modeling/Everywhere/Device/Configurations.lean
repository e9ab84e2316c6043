import Everywhere.Device.Registry

/-!
# The configurations of the shares

A configuration is written when a share is created (`World.create`) and when a device is restored (`importShare`). It is
replaced when a peer is approved or its approval is withdrawn (`grant`), at the end of an index recovery (`recover`),
and when a device is activated (`activate`). Each writes its own text, and no one reads it to see whether it is readable.

* `config_readable` — **what is written is read** after every operation that succeeds, in every run, unless the operation
  approves a 129th peer.
* `config_unreadable` — after that, no one can withdraw an approval any more, and no other folder can be shared.
-/

namespace Everywhere

open Library

namespace World

/-! ### The operations -/

/-- Read the configuration of a share. -/
def readConfig (w : World) (id : String) : Result Registration :=
  match w.shares[id]? with
  | none => .error (.io .notFound)
  | some slot => slot.readConfig

/-- Change what is in the directory of a share, for a configuration. -/
def update (id : String) (f : Slot → Result (Registration × Slot)) (w : World) : Result Registration × World :=
  match w.shares[id]? with
  | none => (.error (.io .notFound), w)
  | some slot =>
    match f slot with
    | .error e => (.error e, w)
    | .ok (config, slot) => (.ok config, { w with shares := w.shares.insert id slot })

/-- Approve a peer, or withdraw its approval: what is written. -/
def grantSlot (peer : String) (remove : Bool) (slot : Slot) : Result (Registration × Slot) := do
  ensure (slot.intent = none) "share state recovery must finish before changing folder grants"
  let config ← slot.readConfig
  let config := { config with peers := if remove then config.peers.erase peer else config.peers.insert peer }
  pure (config, { slot with config := some config.text })

/-- Approve a peer, or withdraw its approval. -/
def grant (id peer : String) (remove : Bool) : Fallible Error World Registration := do
  validPeer peer
  let w ← Fallible.look fun w : World => w
  ensure (remove = true ∨ w.trusted peer = true) "peer is unapproved or revoked"
  validId id
  Fallible.act (update id (grantSlot peer remove))

variable (P : Platform)

/-- The check that a configuration is of this device and of the folder that is there. -/
def binding (w : World) (id : String) (config : Registration) : Result Unit := do
  ensure (config.id = id) "checkpoint device/folder identity mismatch"
  let der ← w.readIdentity.1
  ensure (config.identity = P.blake3 der) "checkpoint device/folder identity mismatch"
  match w.marker config.rootPath with
  | none => .error (.io .notFound)
  | some marker => ensure (marker = utf8 config.marker) "share mount identity changed"

/-- Prepare an index recovery: the configuration that it is going to write. What the checkpoint says is given. -/
def prepareSlot (w : World) (id : String) (path : FilePath) (checkpoint : Result Registration) (epoch : Digest)
    (slot : Slot) : Result (Registration × Slot) := do
  let config ← slot.readConfig
  w.binding P id config
  w.noOverlap path
  let manifest ← checkpoint
  ensure (manifest.id = config.id ∧ manifest.identity = config.identity ∧ manifest.root = config.root ∧
    manifest.marker = config.marker) "checkpoint belongs to another device, folder or root"
  let config := { config with epoch := epoch }
  w.binding P id config
  match slot.intent with
  | some _ => .error (.io .alreadyExists)
  | none => pure (config, { slot with intent := some config })

/-- Finish an index recovery: the configuration is replaced when the index has been. How that went is given. -/
def finishSlot (w : World) (id : String) (index : Result Unit) (slot : Slot) : Result (Registration × Slot) :=
  match slot.intent with
  | none => .error (.io .notFound)
  | some intent => do
    validPeer intent.epoch
    w.binding P id intent
    let current ← slot.readConfig
    ensure (current.id = intent.id ∧ current.root = intent.root ∧ current.identity = intent.identity ∧
      current.marker = intent.marker ∧ current.mode = intent.mode ∧ current.peers = intent.peers)
      "share configuration changed during index recovery; preserving both states"
    index
    pure (intent, { slot with config := some intent.text })

/-- Finish an index recovery. -/
def finish (id : String) (index : Result Unit) : Fallible Error World Registration := do
  let w ← Fallible.look fun w : World => w
  let config ← Fallible.act (update id (finishSlot P w id index))
  Fallible.act (update id fun slot => .ok (config, { slot with intent := none }))

/-- Finish an index recovery that has been prepared, if there is one. -/
def resume (id : String) (index : Result Unit) : Fallible Error World Unit := do
  let w ← Fallible.look fun w : World => w
  match w.shares[id]?.bind (·.intent) with
  | none => pure ()
  | some _ => do
    let _ ← finish P id index
    pure ()

/-- Recover the index of a share from a checkpoint. -/
def recover (id : String) (path : FilePath) (checkpoint : Result Registration) (epoch : Digest)
    (earlier index : Result Unit) : Fallible Error World Registration := do
  validId id
  resume P id earlier
  let w ← Fallible.look fun w : World => w
  let _ ← Fallible.act (update id (prepareSlot P w id path checkpoint epoch))
  finish P id index

/-- Publish a share of a device that is restored. -/
def publishShare (root : FilePath) (config : Registration) (w : World) : Result Registration × World :=
  if config.id ∈ w.shares then (.error (.io .alreadyExists), w)
  else (.ok config, { w with
    shares := w.shares.insert config.id ⟨some config.text, none, true, true⟩
    marker := Function.update w.marker root (some (utf8 config.marker)) })

/-- Restore a share from a checkpoint, whose configuration is given. -/
def importShare (checkpoint : Result Registration) (root : { p : FilePath // Real p }) (marker epoch : Digest) :
    Fallible Error World Registration := do
  let manifest ← checkpoint
  validId manifest.id
  let der ← Fallible.act readIdentity
  Fallible.act (publishShare root { manifest with
    identity := P.blake3 der, epoch := epoch, marker := marker, root := absolute root, peers := ∅, mode := .receiveOnly })

/-- Set the mode: what is written. -/
def activateSlot (mode : Mode) (slot : Slot) : Result (Registration × Slot) := do
  let config ← slot.readConfig
  let config := { config with mode := mode }
  pure (config, { slot with config := some config.text })

/-- Activate a restored device. Whether it has fully reconciled, or need not, is given. -/
def activate (id : String) (mode : Mode) (earlier reconciled : Result Unit) : Fallible Error World Registration := do
  validId id
  resume P id earlier
  let w ← Fallible.look fun w : World => w
  let _ ← w.openShare P id
  reconciled
  Fallible.act (update id (activateSlot mode))

end World

/-- An operation that writes the configuration of a share. -/
inductive Operation where
  /-- Create a share. -/
  | create (id : String) (root : FilePath) (mode : Mode) (marker epoch : Digest)
  /-- Approve a peer, or withdraw its approval. -/
  | grant (id peer : String) (remove : Bool)
  /-- Recover the index. -/
  | recover (id : String) (path : FilePath) (checkpoint : Result Registration) (epoch : Digest)
    (earlier index : Result Unit)
  /-- Restore a share from a checkpoint. -/
  | importShare (checkpoint : Registration) (root : { p : FilePath // Real p }) (marker epoch : Digest)
  /-- Activate a restored device. -/
  | activate (id : String) (mode : Mode) (earlier reconciled : Result Unit)

namespace Operation

/-- The share. -/
def id : Operation → String
  | create id .. => id
  | grant id .. => id
  | recover id .. => id
  | importShare checkpoint .. => checkpoint.id
  | activate id .. => id

variable (P : Platform)

/-- What it does. -/
def program : Operation → Fallible Error World Registration
  | create id root mode marker epoch => World.create P id root mode marker epoch
  | grant id peer remove => World.grant id peer remove
  | recover id path checkpoint epoch earlier index => World.recover P id path checkpoint epoch earlier index
  | importShare checkpoint root marker epoch => World.importShare P (.ok checkpoint) root marker epoch
  | activate id mode earlier reconciled => World.activate P id mode earlier reconciled

/-- It approves a new peer where 128 are approved. -/
def Overfills (w : World) : Operation → Prop
  | grant id peer remove => remove = false ∧ ∃ c, w.readConfig id = .ok c ∧ c.peers.size = 128 ∧ peer ∉ c.peers
  | _ => False

end Operation

namespace World

/-- What can become of a device: its shares are worked on by one operation after the other, and each may end before it is
done. -/
inductive Reachable (P : Platform) : World → Prop
  /-- There is no share yet. -/
  | start {w : World} (h : w.shares = ∅) : Reachable P w
  /-- An operation, or the first part of one. -/
  | step {w w' : World} (op : Operation) {q : Fallible Error World Registration} (h : Reachable P w)
    (hreach : Prog.Reaches (fun _ _ => False) (op.program P) w q w') : Reachable P w'

end World

/-! ### What the operations keep -/

/-- The text of the configuration is one that is written, or a part of one. -/
def Slot.Good (slot : Slot) : Prop :=
  ∀ bytes, slot.config = some bytes → ∃ c : Registration, c.Valid ∧ c.root.utf8ByteSize ≤ 4095 ∧ bytes <+: c.text

/-- The configuration has been written, and is one that is read. -/
structure Slot.Written (slot : Slot) (c : Registration) : Prop where
  /-- It is there. -/
  config : slot.config = some c.text
  /-- It is valid. -/
  valid : c.Valid
  /-- Its path is one that the system takes. -/
  root : c.root.utf8ByteSize ≤ 4095
  /-- Its peers are not too many. -/
  peers : c.peers.size ≤ 128

theorem Slot.Written.good {slot : Slot} {c : Registration} (h : slot.Written c) : slot.Good := fun bytes hb => by
  obtain rfl := Option.some.inj (h.config.symm.trans hb)
  exact ⟨c, h.valid, h.root, List.prefix_rfl⟩

theorem Slot.Written.readConfig {slot : Slot} {c : Registration} (h : slot.Written c) : slot.readConfig = .ok c := by
  rw [Slot.readConfig, h.config]
  exact (Registration.parse_text h.valid).mpr ⟨h.peers, Registration.length_text_le h.valid h.root h.peers⟩

/-- A text is read as nothing else than what it was written from. -/
theorem Registration.eq_of_parse_text {c c' : Registration} (h : parse c.text = .ok c') : c' = c := by
  obtain ⟨-, h⟩ := ensure_bind_eq_ok.mp h
  obtain ⟨c'', hdecode, h⟩ := bind_eq_ok.mp h
  rw [decode, text, Json.parse_pretty c.depth_toJson, Option.bind_some, ofJson_toJson] at hdecode
  obtain rfl := Except.ok.inj hdecode
  obtain ⟨-, -, h⟩ := bind_eq_ok.mp h
  obtain ⟨-, -, h⟩ := bind_eq_ok.mp h
  obtain ⟨-, h⟩ := ensure_bind_eq_ok.mp h
  obtain ⟨-, h⟩ := ensure_bind_eq_ok.mp h
  obtain ⟨-, -, h⟩ := bind_eq_ok.mp h
  exact (pure_eq_ok.mp h).symm

/-- What is read has been written. -/
theorem Slot.Good.written {slot : Slot} {c : Registration} (h : slot.Good) (hread : slot.readConfig = .ok c) :
    slot.Written c := by
  cases hb : slot.config with
  | none =>
    rw [Slot.readConfig, hb] at hread
    cases hread
  | some bytes =>
    rw [Slot.readConfig, hb] at hread
    obtain ⟨c', hvalid, hroot, rest, hrest⟩ := h bytes hb
    obtain rfl : rest = [] := by
      by_contra hne
      exact Registration.parse_cut hrest hne c hread
    rw [List.append_nil] at hrest
    rw [hrest] at hread
    obtain rfl := Registration.eq_of_parse_text hread
    exact ⟨by rw [hb, hrest], hvalid, hroot, (Registration.valid_of_parse hread).2⟩

namespace World

/-- Every configuration on the device is one that has been written, or a part of one. -/
def Kept (w : World) : Prop := ∀ (id : String) (slot : Slot), w.shares[id]? = some slot → slot.Good

/-- The configuration of a share has been written. -/
def Holds (id : String) (c : Registration) (w : World) : Prop := ∃ slot, w.shares[id]? = some slot ∧ slot.Written c

variable {P : Platform} {w : World} {id : String} {c : Registration}

theorem Holds.readConfig (h : w.Holds id c) : w.readConfig id = .ok c := by
  obtain ⟨slot, hslot, hwritten⟩ := h
  rw [World.readConfig, hslot]
  exact hwritten.readConfig

theorem readConfig_eq {slot : Slot} (h : w.shares[id]? = some slot) : w.readConfig id = slot.readConfig := by
  simp only [World.readConfig, h]

theorem Kept.insert (h : w.Kept) {slot : Slot} (hslot : slot.Good) :
    Kept { w with shares := w.shares.insert id slot } := fun k slot' hk => by
  rw [Std.ExtTreeMap.getElem?_insert] at hk
  split_ifs at hk
  · exact Option.some.inj hk ▸ hslot
  · exact h k slot' hk

/-- A change of a share that keeps what is required of it. -/
theorem triple_update {pre : World → Prop} {f : Slot → Result (Registration × Slot)} {R : Registration → Slot → Prop}
    (hpre : ∀ w, pre w → w.Kept)
    (hf : ∀ w slot c slot', pre w → w.shares[id]? = some slot → f slot = .ok (c, slot') → slot'.Good ∧ R c slot') :
    Triple (alone Kept) pre (Fallible.act (update id f))
      (outcome (fun c w => w.Kept ∧ ∃ slot, w.shares[id]? = some slot ∧ R c slot) fun _ => Kept) := by
  refine Triple.alone_act hpre (fun r w h => ?_) fun w h => ?_
  · cases r with
    | error e => exact h
    | ok c => exact h.1
  · rw [update]
    cases hslot : w.shares[id]? with
    | none => exact hpre w h
    | some slot =>
      dsimp only
      cases hr : f slot with
      | error e => exact hpre w h
      | ok r =>
        obtain ⟨hgood, hR⟩ := hf w slot r.1 r.2 h hslot hr
        exact ⟨(hpre w h).insert hgood, r.2, by simp, hR⟩

theorem kept_ofExcept {α : Type} {r : Result α} {Q : α → World → Prop} (h : ∀ a w, r = .ok a → w.Kept → Q a w) :
    Triple (alone Kept) Kept (Fallible.ofExcept r) (outcome Q fun _ => Kept) :=
  Triple.ofExcept (alone_stable _) (fun _ h => h) fun w hw => by
    cases r with
    | error e => exact hw
    | ok a => exact h a w rfl hw

/-- A check. -/
theorem kept_lift {α : Type} (r : Result α) : Triple (alone Kept) Kept (Fallible.ofExcept r)
    (outcome (fun _ => Kept) fun _ => Kept) := kept_ofExcept fun _ _ _ h => h

theorem kept_look {pre : World → Prop} (hpre : ∀ w, pre w → w.Kept) :
    Triple (alone Kept) pre (Fallible.look (fun w => w) : Fallible Error World World)
      (outcome (fun _ => pre) fun _ => Kept) :=
  (Triple.alone_act (Q := fun _ => pre) hpre (fun _ => hpre) fun _ h => h).conseq (fun _ h => h) fun r w h => by
    cases r with
    | error e => exact hpre w h
    | ok w => exact h

/-- The end of an index recovery writes what has been read, but for its generation. -/
theorem finishSlot_written {index : Result Unit} {slot slot' : Slot} (hgood : slot.Good)
    (h : finishSlot P w id index slot = .ok (c, slot')) : slot'.Written c := by
  rw [finishSlot] at h
  split at h
  · cases h
  · rename_i intent _
    obtain ⟨⟨⟩, hepoch, h⟩ := bind_eq_ok.mp h
    obtain ⟨⟨⟩, -, h⟩ := bind_eq_ok.mp h
    obtain ⟨current, hread, h⟩ := bind_eq_ok.mp h
    obtain ⟨⟨hid, hroot, hidentity, hmarker, -, hpeers⟩, h⟩ := ensure_bind_eq_ok.mp h
    obtain ⟨⟨⟩, -, h⟩ := bind_eq_ok.mp h
    cases pure_eq_ok.mp h
    have hw := hgood.written hread
    exact ⟨rfl, ⟨hid ▸ hw.valid.id, hidentity ▸ hw.valid.identity, ensure_eq_ok.mp hepoch, hmarker ▸ hw.valid.marker,
      hroot ▸ hw.valid.root, hpeers ▸ hw.valid.peers⟩, hroot ▸ hw.root, hpeers ▸ hw.peers⟩

theorem triple_finish (index : Result Unit) : Triple (alone Kept) Kept (finish P id index)
    (outcome (fun c w => w.Kept ∧ w.Holds id c) fun _ => Kept) := by
  refine (kept_look fun _ h => h).andThen fun w => ?_
  refine (triple_update (R := fun c slot => slot.Written c) (fun _ h => h)
    fun w' slot c slot' hw hslot h => ?_).andThen fun c => ?_
  · have hwritten := finishSlot_written (hw id slot hslot) h
    exact ⟨hwritten.good, hwritten⟩
  · refine (triple_update (R := fun c' slot => c' = c ∧ slot.Written c) (fun _ h => h.1)
      fun w' slot c' slot' hw hslot h => ?_).conseq (fun _ h => h) fun r w h => ?_
    · obtain ⟨-, slot₁, hslot₁, hwritten⟩ := hw
      obtain rfl := Option.some.inj (hslot.symm.trans hslot₁)
      cases h
      have hwritten' : Slot.Written { slot with intent := none } c :=
        ⟨hwritten.config, hwritten.valid, hwritten.root, hwritten.peers⟩
      exact ⟨hwritten'.good, rfl, hwritten'⟩
    · cases r with
      | error e => exact h
      | ok c' =>
        obtain ⟨hkept, slot, hslot, rfl, hwritten⟩ := h
        exact ⟨hkept, slot, hslot, hwritten⟩

theorem triple_resume (index : Result Unit) : Triple (alone Kept) Kept (resume P id index)
    (outcome (fun _ => Kept) fun _ => Kept) := by
  refine (kept_look fun _ h => h).andThen fun w => ?_
  split
  · exact kept_lift _
  · refine (triple_finish index).andThen fun c => ?_
    exact (kept_lift (.ok ())).conseq (fun _ h => h.1) fun _ _ h => h

theorem prepareSlot_good {path : FilePath} {checkpoint : Result Registration} {epoch : Digest} {slot slot' : Slot}
    (hgood : slot.Good) (h : prepareSlot P w id path checkpoint epoch slot = .ok (c, slot')) : slot'.Good := by
  obtain ⟨config, -, h⟩ := bind_eq_ok.mp h
  obtain ⟨⟨⟩, -, h⟩ := bind_eq_ok.mp h
  obtain ⟨⟨⟩, -, h⟩ := bind_eq_ok.mp h
  obtain ⟨manifest, -, h⟩ := bind_eq_ok.mp h
  obtain ⟨-, h⟩ := ensure_bind_eq_ok.mp h
  obtain ⟨⟨⟩, -, h⟩ := bind_eq_ok.mp h
  split at h
  · cases h
  · cases pure_eq_ok.mp h
    exact hgood

theorem triple_recover {path : FilePath} {checkpoint : Result Registration} {epoch : Digest}
    {earlier index : Result Unit} : Triple (alone Kept) Kept (recover P id path checkpoint epoch earlier index)
      (outcome (fun c w => w.Holds id c) fun _ => Kept) := by
  refine (kept_lift _).andThen fun _ => (triple_resume earlier).andThen fun _ => ?_
  refine (kept_look fun _ h => h).andThen fun w => ?_
  refine (triple_update (R := fun _ _ => True) (fun _ h => h) fun w' slot c slot' hw hslot h =>
    ⟨prepareSlot_good (hw id slot hslot) h, trivial⟩).andThen fun _ => ?_
  exact (triple_finish index).conseq (fun _ h => h.1) fun r w h => by
    cases r with
    | error e => exact h
    | ok c => exact h.2

theorem triple_activate {mode : Mode} {earlier reconciled : Result Unit} : Triple (alone Kept) Kept
    (activate P id mode earlier reconciled) (outcome (fun c w => w.Holds id c) fun _ => Kept) := by
  refine (kept_lift _).andThen fun _ => (triple_resume earlier).andThen fun _ => ?_
  refine (kept_look fun _ h => h).andThen fun w => (kept_lift _).andThen fun _ => (kept_lift _).andThen fun _ => ?_
  refine (triple_update (R := fun c slot => slot.Written c) (fun _ h => h)
    fun w' slot c slot' hw hslot h => ?_).conseq (fun _ h => h) fun r w h => ?_
  · obtain ⟨config, hread, h⟩ := bind_eq_ok.mp h
    cases pure_eq_ok.mp h
    have hwritten := (hw id slot hslot).written hread
    have hnew : Slot.Written { slot with config := some { config with mode := mode }.text } { config with mode := mode } :=
      ⟨rfl, ⟨hwritten.valid.id, hwritten.valid.identity, hwritten.valid.epoch, hwritten.valid.marker,
        hwritten.valid.root, hwritten.valid.peers⟩, hwritten.root, hwritten.peers⟩
    exact ⟨hnew.good, hnew⟩
  · cases r with
    | error e => exact h
    | ok c => exact h.2

theorem triple_importShare (hhash : ∀ bytes, isHash (P.blake3 bytes) = true) {checkpoint : Registration}
    {root : { p : FilePath // Real p }} {marker epoch : Digest} : Triple (alone Kept) Kept
      (importShare P (.ok checkpoint) root marker epoch)
      (outcome (fun c w => w.Holds checkpoint.id c) fun _ => Kept) := by
  refine (kept_ofExcept (r := .ok checkpoint) (Q := fun manifest w => w.Kept ∧ manifest = checkpoint)
    fun a w ha hw => ⟨hw, (Except.ok.inj ha).symm⟩).andThen fun manifest => Triple.fact fun hmanifest => ?_
  subst hmanifest
  refine (kept_ofExcept (Q := fun _ w => w.Kept ∧ plainName manifest.id = true)
    fun _ w hid hw => ⟨hw, ensure_eq_ok.mp hid⟩).andThen fun _ => Triple.fact fun hplain => ?_
  have hread : Triple (alone Kept) Kept (Fallible.act readIdentity) (outcome (fun _ => Kept) fun _ => Kept) :=
    (Triple.alone_act (Q := fun _ => Kept) (fun _ h => h) (fun _ _ h => h) fun w h => by
      rw [readIdentity]
      split
      · exact h
      · exact h).conseq (fun _ h => h) fun r w h => by cases r <;> exact h
  refine hread.andThen fun der => ?_
  refine (Triple.alone_act (Q := outcome (fun c w => w.Kept ∧ w.Holds manifest.id c) fun _ => Kept) (fun _ h => h)
    (fun r w h => ?_) fun w hw => ?_).conseq (fun _ h => h) fun r w h => ?_
  · cases r with
    | error e => exact h
    | ok c => exact h.1
  · rw [publishShare]
    split
    · exact hw
    · have hwritten : Slot.Written
          ⟨some (Registration.text { manifest with
            identity := P.blake3 der, epoch := epoch, marker := marker, root := absolute root, peers := ∅,
            mode := .receiveOnly }), none, true, true⟩
          { manifest with
            identity := P.blake3 der, epoch := epoch, marker := marker, root := absolute root, peers := ∅,
            mode := .receiveOnly } :=
        ⟨rfl, ⟨hplain, hhash der, epoch.2, marker.2, by simp [absolute], fun peer h => by simp at h⟩, root.2.length,
          by simp⟩
      have hkept := @Kept.insert w manifest.id hw _ hwritten.good
      exact ⟨fun k slot hk => hkept k slot hk, _, by simp, hwritten⟩
  · cases r with
    | error e => exact h
    | ok c => exact h.2

/-- A creation. -/
theorem meets_create (hhash : ∀ bytes, isHash (P.blake3 bytes) = true) {root : FilePath} {mode : Mode}
    {marker epoch : Digest} (hw : w.Kept) : Meets (alone Kept) (create P id root mode marker epoch)
      (fun r s => ∀ c, r = .ok c → s.readConfig id = .ok c) w := by
  have hstopped : Meets (alone (Stopped w id root (w.newText P id root mode marker epoch)))
      (create P id root mode marker epoch) (fun r s => ∀ c, r = .ok c → s.openShare P id = .ok c) w := stopped_create
  refine (Meets.weaken_alone hstopped fun s hs => ?_).mono fun r s h c hc => ?_
  · rcases hs with rfl | ⟨hok, slot, m, rfl, hslot⟩
    · exact hw
    · have hc := creatable_eq_ok.mp hok
      refine fun k slot' hk bytes hb => ?_
      rw [getElem?_stage] at hk
      split_ifs at hk
      · obtain rfl := Option.some.inj hk
        exact ⟨_, valid_initial hc.plain (hhash _), (w.real root hc.isDir).length, hslot bytes hb⟩
      · exact hw k slot' hk bytes hb
  · have hopen := h c hc
    rw [readConfig]
    cases hslot : s.shares[id]? with
    | none =>
      rw [openShare, hslot] at hopen
      cases hopen
    | some slot =>
      rw [openShare, hslot] at hopen
      obtain ⟨c', hread, hopen⟩ := bind_eq_ok.mp hopen
      obtain ⟨-, hopen⟩ := ensure_bind_eq_ok.mp hopen
      obtain ⟨-, hopen⟩ := ensure_bind_eq_ok.mp hopen
      obtain ⟨-, hopen⟩ := ensure_bind_eq_ok.mp hopen
      obtain ⟨-, hopen⟩ := ensure_bind_eq_ok.mp hopen
      exact hread.trans hopen

/-- What a grant writes can be read just when it does not approve a 129th peer. -/
theorem grantSlot_spec {peer : String} (hpeer : isHash peer = true) {remove : Bool} {slot slot' : Slot}
    (hgood : slot.Good) (h : grantSlot peer remove slot = .ok (c, slot')) : slot'.Good ∧ ∃ config,
      slot.readConfig = .ok config ∧
        (slot'.readConfig = .ok c ↔ ¬ (remove = false ∧ config.peers.size = 128 ∧ peer ∉ config.peers)) := by
  obtain ⟨-, h⟩ := ensure_bind_eq_ok.mp h
  obtain ⟨config, hread, h⟩ := bind_eq_ok.mp h
  cases pure_eq_ok.mp h
  have hwritten := hgood.written hread
  have hpeers : ∀ other ∈ if remove then config.peers.erase peer else config.peers.insert peer, isHash other = true := by
    intro other hother
    split_ifs at hother
    · exact hwritten.valid.peers other (Std.ExtTreeSet.mem_of_mem_erase hother)
    · rcases Std.ExtTreeSet.mem_insert.mp hother with heq | hmem
      · rw [← compare_eq_iff_eq.mp heq]
        exact hpeer
      · exact hwritten.valid.peers other hmem
  have hvalid : Registration.Valid
      { config with peers := if remove then config.peers.erase peer else config.peers.insert peer } :=
    ⟨hwritten.valid.id, hwritten.valid.identity, hwritten.valid.epoch, hwritten.valid.marker, hwritten.valid.root, hpeers⟩
  refine ⟨fun bytes hb => ⟨_, hvalid, hwritten.root, ?_⟩, config, hread, ?_⟩
  · rw [← Option.some.inj hb]
  · refine (Registration.parse_text hvalid).trans ?_
    have hlength := Registration.length_text_le hvalid hwritten.root
    have hsize := hwritten.peers
    cases remove with
    | true =>
      have herase : (config.peers.erase peer).size ≤ config.peers.size := Std.ExtTreeSet.size_erase_le
      exact ⟨fun _ h => (by cases h.1), fun _ => ⟨herase.trans hsize, hlength (herase.trans hsize)⟩⟩
    | false =>
      have hinsert : (config.peers.insert peer).size =
          if peer ∈ config.peers then config.peers.size else config.peers.size + 1 := Std.ExtTreeSet.size_insert
      have hle : (config.peers.insert peer).size ≤ 128 ↔ ¬ (config.peers.size = 128 ∧ peer ∉ config.peers) := by
        rw [hinsert]
        split_ifs with hmem
        · simp [hmem, hsize]
        · simp only [hmem, not_false_eq_true, and_true]
          omega
      constructor
      · rintro ⟨h, -⟩ ⟨-, hfull⟩
        exact hle.mp h hfull
      · intro h
        have hnot := hle.mpr fun hfull => h ⟨rfl, hfull⟩
        exact ⟨hnot, hlength hnot⟩

/-- An approval, or the withdrawal of one. -/
theorem meets_grant {peer : String} {remove : Bool} (hw : w.Kept) : Meets (alone Kept) (grant id peer remove)
    (fun r s => ∀ c, r = .ok c → (s.readConfig id = .ok c ↔ ¬ (Operation.grant id peer remove).Overfills w)) w := by
  have hlift {α : Type} (r : Result α) : Triple (alone Kept) (· = w) (Fallible.ofExcept r)
      (outcome (fun a s => s = w ∧ r = .ok a) fun _ => Kept) :=
    Triple.ofExcept (alone_stable _) (by rintro _ rfl; exact hw) fun s hs => by
      subst hs
      cases r with
      | error e => exact hw
      | ok a => exact ⟨rfl, rfl⟩
  have hmeets : Triple (alone Kept) (· = w) (grant id peer remove) (outcome
      (fun c s => s.Kept ∧ (s.readConfig id = .ok c ↔ ¬ (Operation.grant id peer remove).Overfills w)) fun _ => Kept) := by
    refine (hlift _).andThen fun _ => Triple.fact fun hpeer => ?_
    refine (at_look hw).andThen fun w₁ => Triple.fact fun _ => ?_
    refine (hlift _).andThen fun _ => Triple.fact fun _ => (hlift _).andThen fun _ => Triple.fact fun _ => ?_
    refine Triple.alone_act (by rintro _ rfl; exact hw) (fun r s h => ?_) ?_
    · cases r with
      | error e => exact h
      | ok c => exact h.1
    · rintro w rfl
      rw [update]
      cases hslot : w.shares[id]? with
      | none => exact hw
      | some slot =>
        dsimp only
        cases hr : grantSlot peer remove slot with
        | error e => exact hw
        | ok r =>
          obtain ⟨hgood, config, hread, hiff⟩ := grantSlot_spec (ensure_eq_ok.mp hpeer) (hw id slot hslot) hr
          have hbefore : w.readConfig id = .ok config := (readConfig_eq hslot).trans hread
          have hafter : readConfig { w with shares := w.shares.insert id r.2 } id = r.2.readConfig := by
            simp [readConfig]
          refine ⟨hw.insert hgood, ?_⟩
          dsimp only
          rw [hafter, hiff]
          refine not_congr ⟨fun h => ⟨h.1, config, hbefore, h.2⟩, ?_⟩
          rintro ⟨hremove, c, hc, h⟩
          obtain rfl := Except.ok.inj (hbefore.symm.trans hc)
          exact ⟨hremove, h⟩
  refine (hmeets w rfl).mono fun r s h c hc => ?_
  subst hc
  exact h.2

/-- What every operation keeps, and what it leaves to read. -/
theorem meets_operation (hhash : ∀ bytes, isHash (P.blake3 bytes) = true) (hw : w.Kept) (op : Operation) :
    Meets (alone Kept) (op.program P)
      (fun r s => ∀ c, r = .ok c → (s.readConfig op.id = .ok c ↔ ¬ op.Overfills w)) w := by
  have hread {p : Fallible Error World Registration}
      (h : Triple (alone Kept) Kept p (outcome (fun c s => s.Holds op.id c) fun _ => Kept)) :
      Meets (alone Kept) p (fun r s => ∀ c, r = .ok c → s.readConfig op.id = .ok c) w :=
    (h w hw).mono fun r s hr c hc => by
      subst hc
      exact hr.readConfig
  cases op with
  | create id root mode marker epoch =>
    exact (meets_create hhash hw).mono fun r s h c hc => ⟨fun _ h => h, fun _ => h c hc⟩
  | grant id peer remove => exact meets_grant hw
  | recover id path checkpoint epoch earlier index =>
    exact (hread triple_recover).mono fun r s h c hc => ⟨fun _ h => h, fun _ => h c hc⟩
  | importShare checkpoint root marker epoch =>
    exact (hread (triple_importShare hhash)).mono fun r s h c hc => ⟨fun _ h => h, fun _ => h c hc⟩
  | activate id mode earlier reconciled =>
    exact (hread triple_activate).mono fun r s h c hc => ⟨fun _ h => h, fun _ => h c hc⟩

theorem Reachable.kept (hhash : ∀ bytes, isHash (P.blake3 bytes) = true) (h : Reachable P w) : w.Kept := by
  induction h with
  | start h =>
    intro id slot hslot
    rw [h] at hslot
    simp at hslot
  | step op _ hreach ih => exact ((meets_operation hhash ih op).reaches hreach).inv

/-- **What is written is read.** In every run of operations on the shares of a device, of which each may end before it is
done: when an operation succeeds, the configuration of its share is read, and is the one that it has written, just when
the operation is not the approval of a new peer where 128 are approved. -/
theorem config_readable (hhash : ∀ bytes, isHash (P.blake3 bytes) = true) (w : World) (h : Reachable P w) (op : Operation)
    (c : Registration) (hok : (Fallible.run (op.program P) w).1 = .ok c) :
    (Fallible.run (op.program P) w).2.readConfig op.id = .ok c ↔ ¬ op.Overfills w :=
  (meets_operation hhash (h.kept hhash) op).run c hok

/-- The configuration of a share that is created is read. -/
theorem config_readable_created : ∃ c, (Fallible.run ((Operation.create "a" ["a"] .bidirectional sampleDigest
    sampleDigest).program Platform.padded) newDevice).2.readConfig "a" = .ok c := by
  obtain ⟨c, hc⟩ : ∃ c, (Fallible.run (create Platform.padded "a" ["a"] .bidirectional sampleDigest sampleDigest)
      newDevice).1 = .ok c :=
    (run_create_eq_ok Platform.padded_isHash rfl).mpr (creatable_newDevice (by decide) (by decide) (by decide))
  exact ⟨c, (config_readable Platform.padded_isHash newDevice (.start rfl)
    (.create "a" ["a"] .bidirectional sampleDigest sampleDigest) c hc).mpr fun h => h⟩

/-! ### Too many peers -/

theorem run_grant {peer : String} {remove : Bool} (hpeer : isHash peer = true) (htrusted : w.trusted peer = true)
    (hid : plainName id = true) : Fallible.run (grant id peer remove) w = update id (grantSlot peer remove) w := by
  have h1 : validPeer peer = .ok () := ensure_eq_ok.mpr hpeer
  have h2 : ensure (remove = true ∨ w.trusted peer = true) "peer is unapproved or revoked" = .ok () :=
    ensure_eq_ok.mpr (.inr htrusted)
  have h3 : validId id = .ok () := ensure_eq_ok.mpr hid
  rw [grant, h1]
  change Fallible.run (Fallible.ofExcept _ >>= fun _ => Fallible.ofExcept _ >>= fun _ => Fallible.act _) w = _
  rw [h2, h3]
  rfl

/-- While a configuration cannot be read, no approval of its share is given or withdrawn, and no share is created. -/
theorem blocked {slot : Slot} (hslot : w.shares[id]? = some slot) (hread : ∀ c, slot.readConfig ≠ .ok c) :
    (∀ peer remove c, (Fallible.run (grant id peer remove) w).1 ≠ .ok c) ∧
      ∀ id' root mode marker epoch c, (Fallible.run (create P id' root mode marker epoch) w).1 ≠ .ok c := by
  constructor
  · intro peer remove c hc
    obtain ⟨_, t, h, hc⟩ := Fallible.run_bind_eq_ok.mp (Prod.ext hc rfl)
    obtain ⟨-, rfl⟩ := Prod.mk.inj h
    obtain ⟨_, t, h, hc⟩ := Fallible.run_bind_eq_ok.mp hc
    obtain ⟨-, rfl⟩ := Prod.mk.inj h
    obtain ⟨_, t, h, hc⟩ := Fallible.run_bind_eq_ok.mp hc
    obtain ⟨-, rfl⟩ := Prod.mk.inj h
    obtain ⟨_, t, h, hc⟩ := Fallible.run_bind_eq_ok.mp hc
    obtain ⟨-, rfl⟩ := Prod.mk.inj h
    simp only [Fallible.run_act, update, hslot] at hc
    cases hr : grantSlot peer remove slot with
    | error e =>
      rw [hr] at hc
      cases hc
    | ok r =>
      obtain ⟨-, hr⟩ := ensure_bind_eq_ok.mp hr
      obtain ⟨config, hconfig, -⟩ := bind_eq_ok.mp hr
      exact hread config hconfig
  · intro id' root mode marker epoch c hc
    cases h : w.creatable id' root with
    | ok u =>
      obtain ⟨c', hc', -⟩ := (creatable_eq_ok.mp h).clear id slot hslot
      exact hread c' hc'
    | error e =>
      have hmeets : Meets (alone fun _ => True) (create P id' root mode marker epoch) _ w := create_refused trivial h
      cases hmeets.run.1.symm.trans hc

/-- A digest for every small number. -/
def digestOf (n : ℕ) : String := Platform.padded.blake3 [UInt8.ofNat n]

theorem digestOf_inj {m n : ℕ} (hm : m < 256) (hn : n < 256) (h : digestOf m = digestOf n) : m = n := by
  have hlist := String.ofList_injective h
  have h62 := congrArg (·[62]?) hlist
  have h63 := congrArg (·[63]?) hlist
  simp [Nat.mod_eq_of_lt hm, Nat.mod_eq_of_lt hn] at h62 h63
  have h1 := hexDigit_inj _ (Nat.mod_lt _ (by decide)) _ (Nat.mod_lt _ (by decide)) h62
  have h2 := hexDigit_inj _ (Nat.mod_lt _ (by decide)) _ (Nat.mod_lt _ (by decide)) h63
  omega

theorem validPeer_digestOf (n : ℕ) : isHash (digestOf n) = true := Platform.padded_isHash _

/-- The approval of a peer. -/
theorem run_grant_read {peer : String} {slot : Slot} (hpeer : isHash peer = true) (htrusted : w.trusted peer = true)
    (hid : plainName id = true) (hslot : w.shares[id]? = some slot) (hintent : slot.intent = none)
    (hread : slot.readConfig = .ok c) : Fallible.run (grant id peer false) w =
      (.ok { c with peers := c.peers.insert peer }, { w with
        shares := (w.shares.insert id
          { slot with config := some (Registration.text { c with peers := c.peers.insert peer }) }) }) := by
  have hgrant : grantSlot peer false slot = .ok ({ c with peers := c.peers.insert peer },
      { slot with config := some (Registration.text { c with peers := c.peers.insert peer }) }) :=
    ensure_bind_eq_ok.mpr ⟨hintent, bind_eq_ok.mpr ⟨c, hread, rfl⟩⟩
  rw [run_grant hpeer htrusted hid]
  simp only [update, hslot, hgrant]

/-- A share of which the first peers are approved. -/
structure Granted (n : ℕ) (w : World) (slot : Slot) (c : Registration) : Prop where
  /-- It can be reached. -/
  reachable : Reachable Platform.padded w
  /-- All certificates are there. -/
  trusted : w.trusted = fun _ => true
  /-- It is the share. -/
  found : w.shares["a"]? = some slot
  /-- No index recovery has been prepared. -/
  intent : slot.intent = none
  /-- Its configuration is there. -/
  config : slot.config = some c.text
  /-- It is valid. -/
  valid : c.Valid
  /-- Its path is short. -/
  root : c.root.utf8ByteSize ≤ 4095
  /-- There are so many peers. -/
  size : c.peers.size = n
  /-- They are the first. -/
  peers : ∀ k < 256, digestOf k ∈ c.peers ↔ k < n

theorem Granted.readConfig {n : ℕ} {slot : Slot} (h : Granted n w slot c) (hn : n ≤ 128) : slot.readConfig = .ok c :=
  Slot.Written.readConfig ⟨h.config, h.valid, h.root, h.size.le.trans hn⟩

theorem Granted.next {n : ℕ} {slot : Slot} (h : Granted n w slot c) (hn : n ≤ 128) :
    ∃ c' w' slot', Fallible.run (grant "a" (digestOf n) false) w = (.ok c', w') ∧ Granted (n + 1) w' slot' c' := by
  have hrun := run_grant_read (validPeer_digestOf n) (by rw [h.trusted]) (by decide) h.found h.intent (h.readConfig hn)
  have hnew : digestOf n ∉ c.peers := fun hmem => Nat.lt_irrefl n ((h.peers n (by omega)).mp hmem)
  refine ⟨_, _, _, hrun, ?_, h.trusted, Std.ExtTreeMap.getElem?_insert_self, h.intent, rfl, ?_, h.root, ?_, fun k hk => ?_⟩
  · have hreach := Prog.reaches_run (fun _ _ : World => False) (grant "a" (digestOf n) false) w
    have hsnd := congrArg Prod.snd hrun
    change (Prog.run (grant "a" (digestOf n) false) w).2 = _ at hsnd
    rw [hsnd] at hreach
    exact .step (.grant "a" (digestOf n) false) h.reachable hreach
  · refine ⟨h.valid.id, h.valid.identity, h.valid.epoch, h.valid.marker, h.valid.root, fun other hother => ?_⟩
    rcases Std.ExtTreeSet.mem_insert.mp hother with heq | hmem
    · rw [← compare_eq_iff_eq.mp heq]
      exact validPeer_digestOf n
    · exact h.valid.peers other hmem
  · have hinsert : (c.peers.insert (digestOf n)).size =
        if digestOf n ∈ c.peers then c.peers.size else c.peers.size + 1 := Std.ExtTreeSet.size_insert
    rw [hinsert, if_neg hnew, h.size]
  · rw [Std.ExtTreeSet.mem_insert, compare_eq_iff_eq, h.peers k hk]
    constructor
    · rintro (heq | hlt)
      · have := digestOf_inj (by omega) hk heq
        omega
      · omega
    · intro hlt
      rcases Nat.lt_succ_iff_lt_or_eq.mp hlt with h' | rfl
      · exact .inr h'
      · exact .inl rfl

/-- The first peers, approved one after the other. -/
theorem exists_granted (n : ℕ) (hn : n ≤ 129) : ∃ w slot c, Granted n w slot c := by
  induction n with
  | zero =>
    have ha : newDevice.Creatable "a" ["a"] := creatable_newDevice (by decide) (by decide) (by decide)
    have hmeets : Meets _ (create Platform.padded "a" ["a"] .bidirectional sampleDigest sampleDigest) _ newDevice :=
      create_meets (creatable_eq_ok.mpr ha) ha.fresh ha.unmarked rfl
    have hreach : Reachable Platform.padded
        (newDevice.created Platform.padded "a" ["a"] .bidirectional sampleDigest sampleDigest) := by
      rw [← hmeets.run.2]
      exact .step (.create "a" ["a"] .bidirectional sampleDigest sampleDigest) (.start rfl) (Prog.reaches_run _ _ _)
    refine ⟨_, _, initial Platform.padded "a" ["a"] .bidirectional sampleDigest sampleDigest [], hreach, rfl,
      Std.ExtTreeMap.getElem?_insert_self, rfl, rfl, valid_initial (by decide) (Platform.padded_isHash _),
      (newDevice.real ["a"] (by decide)).length, by simp [initial], fun k _ => by simp [initial]⟩
  | succ n ih =>
    obtain ⟨w, slot, c, h⟩ := ih (by omega)
    obtain ⟨c', w', slot', -, h'⟩ := h.next (by omega)
    exact ⟨w', slot', c', h'⟩

/-- The 129th peer is approved, and what has been written is not read; then no approval can be withdrawn, and no other
folder can be shared. -/
theorem config_unreadable : ∃ w c, Reachable Platform.padded w ∧
    (Fallible.run (grant "a" (digestOf 128) false) w).1 = .ok c ∧
      (Fallible.run (grant "a" (digestOf 128) false) w).2.readConfig "a" ≠ .ok c ∧
      (∀ peer remove c', (Fallible.run (grant "a" peer remove)
        (Fallible.run (grant "a" (digestOf 128) false) w).2).1 ≠ .ok c') ∧
      ∀ id root mode marker epoch c', (Fallible.run (create Platform.padded id root mode marker epoch)
        (Fallible.run (grant "a" (digestOf 128) false) w).2).1 ≠ .ok c' := by
  obtain ⟨w, slot, c, h⟩ := exists_granted 128 (by decide)
  obtain ⟨c', w', slot', hrun, h'⟩ := h.next (by decide)
  have hread (c₀ : Registration) : slot'.readConfig ≠ .ok c₀ := by
    intro hc
    rw [Slot.readConfig, h'.config] at hc
    have hsize := (Registration.valid_of_parse hc).2
    rw [Registration.eq_of_parse_text hc, h'.size] at hsize
    omega
  refine ⟨w, c', h.reachable, ?_⟩
  rw [hrun]
  exact ⟨rfl, by rw [readConfig_eq h'.found]; exact hread c', blocked h'.found hread⟩

end World

end Everywhere
