import Everywhere.Device.Archive
import Everywhere.Folder.Root
import Everywhere.Library.Pretty

/-!
# The registry of shares

The state of a device has a directory for each share, and in it the configuration of the share. To create a share, its
directory is made first, then a marker in the folder, and then what is in the directory: the configuration is written in
place. Everyone who needs to know of the other folders reads all configurations (`World.clearOf`). A creation can fail,
and the program can end, at any point; what is there then stays.

* `Registration.parse_text` — a configuration that has been written is read, if it has not too many peers.
* `create_stopped` — **what a failed creation leaves** stops every later one, unless it failed before it made the
  directory or after it wrote the configuration.
-/

namespace Everywhere

open Library

/-- The configuration of a share, as it is on the disk. -/
structure Registration where
  /-- The name of the folder. -/
  id : String
  /-- Where the folder is. -/
  root : String
  /-- The device. -/
  identity : String
  /-- The generation of the index. -/
  epoch : String
  /-- What stands in the marker of the folder. -/
  marker : String
  /-- Which way changes flow. -/
  mode : Mode
  /-- The approved peers. -/
  peers : Std.ExtTreeSet String
  deriving DecidableEq

/-! ### Its text -/

/-- The name of a mode. -/
def modeName : Mode → String
  | .sendOnly => "send-only"
  | .receiveOnly => "receive-only"
  | .bidirectional => "bidirectional"

/-- The mode of a name. -/
def modeOf : String → Option Mode
  | "send-only" => some .sendOnly
  | "receive-only" => some .receiveOnly
  | "bidirectional" => some .bidirectional
  | _ => none

/-- A string. -/
def jsonString : Json → Option String
  | .str s => some s
  | _ => none

namespace Registration

/-- The names of the fields. -/
def fields : List String := ["id", "root", "identity", "epoch", "marker", "mode", "peers"]

/-- A configuration as JSON. -/
def toJson (c : Registration) : Json :=
  .obj [("id", .str c.id), ("root", .str c.root), ("identity", .str c.identity), ("epoch", .str c.epoch),
    ("marker", .str c.marker), ("mode", .str (modeName c.mode)), ("peers", .arr (c.peers.toList.map .str))]

theorem depth_toJson (c : Registration) : c.toJson.depth ≤ Json.maxDepth := by
  have hpeers : (Json.arr (c.peers.toList.map .str)).depth ≤ 1 := by
    refine Json.depth_arr_le.mpr fun j hj => ?_
    obtain ⟨peer, -, rfl⟩ := List.mem_map.mp hj
    exact le_rfl
  have hdepth : c.toJson.depth ≤ 2 := by
    refine Json.depth_obj_le.mpr fun m hm => ?_
    simp only [List.mem_cons, List.not_mem_nil, or_false] at hm
    rcases hm with rfl | rfl | rfl | rfl | rfl | rfl | rfl <;> first | exact hpeers | exact Nat.zero_le _
  exact hdepth.trans (by decide)

/-- A configuration read from JSON. -/
def ofJson : Json → Option Registration
  | .obj members => do
    guard (∀ m ∈ members, m.1 ∈ fields)
    guard (members.map (·.1)).Nodup
    let text name := (Json.get name (.obj members)).bind jsonString
    let mode ← (← text "mode") |> modeOf
    let .arr peers ← Json.get "peers" (.obj members) | none
    let peers ← peers.mapM jsonString
    pure ⟨← text "id", ← text "root", ← text "identity", ← text "epoch", ← text "marker", mode,
      Std.ExtTreeSet.ofList peers⟩
  | _ => none

/-- Its text. -/
def text (c : Registration) : Bytes := c.toJson.pretty 0

/-- The length of a text at most. -/
def maxText : ℕ := 128 * 1024

/-- The configuration that a text is of. -/
def decode (bytes : Bytes) : Result Registration :=
  match (Json.parse bytes).bind ofJson with
  | some config => .ok config
  | none => .error .json

/-- Read a configuration. -/
def parse (bytes : Bytes) : Result Registration := do
  ensure (bytes.length ≤ maxText) "share configuration too large"
  let config ← decode bytes
  validId config.id
  [config.identity, config.epoch, config.marker].forM validPeer
  ensure (config.root.toList.head? = some '/') "share root must be absolute"
  ensure (config.peers.size ≤ 128) "too many approved peers"
  config.peers.toList.forM validPeer
  pure config

/-- What every configuration that is written fulfils. -/
structure Valid (c : Registration) : Prop where
  /-- The name is plain. -/
  id : plainName c.id = true
  /-- The identity is a digest. -/
  identity : isHash c.identity = true
  /-- So is the generation. -/
  epoch : isHash c.epoch = true
  /-- So is the marker. -/
  marker : isHash c.marker = true
  /-- The path is absolute. -/
  root : c.root.toList.head? = some '/'
  /-- The peers are digests. -/
  peers : ∀ peer ∈ c.peers, isHash peer = true

theorem modeOf_modeName (mode : Mode) : modeOf (modeName mode) = some mode := by cases mode <;> rfl

theorem mapM_jsonString (l : List String) : l.mapM (jsonString ∘ Json.str) = some l := by
  induction l with
  | nil => rfl
  | cons s l ih => rw [List.mapM_cons, ih]; rfl

theorem ofList_toList (s : Std.ExtTreeSet String) : Std.ExtTreeSet.ofList s.toList = s := by
  refine Std.ExtTreeSet.ext_mem fun x => ?_
  rw [Std.ExtTreeSet.mem_ofList, List.contains_iff_mem, Std.ExtTreeSet.mem_toList]

theorem ofJson_toJson (c : Registration) : ofJson c.toJson = some c := by
  simp [toJson, ofJson, fields, Json.get, List.lookup, jsonString, modeOf_modeName, mapM_jsonString, ofList_toList]

/-- What was written is read, if it is not too long and has not too many peers. -/
theorem parse_text {c : Registration} (h : c.Valid) :
    parse c.text = .ok c ↔ c.peers.size ≤ 128 ∧ c.text.length ≤ maxText := by
  have hread : decode c.text = .ok c := by
    rw [decode, text, Json.parse_pretty c.depth_toJson, Option.bind_some, ofJson_toJson]
  have hdigests : [c.identity, c.epoch, c.marker].forM validPeer = .ok () :=
    forM_eq_ok.mpr (by simp [validPeer, ensure_eq_ok, h.identity, h.epoch, h.marker])
  have hpeers : c.peers.toList.forM validPeer = .ok () :=
    forM_eq_ok.mpr fun peer hp => ensure_eq_ok.mpr (h.peers peer (Std.ExtTreeSet.mem_toList.mp hp))
  simp only [parse, ensure_bind_eq_ok, hread]
  constructor
  · rintro ⟨hlen, hbody⟩
    obtain ⟨c', hc', hbody⟩ := bind_eq_ok.mp hbody
    obtain rfl := Except.ok.inj hc'
    obtain ⟨-, -, hbody⟩ := bind_eq_ok.mp hbody
    obtain ⟨-, -, hbody⟩ := bind_eq_ok.mp hbody
    obtain ⟨-, hbody⟩ := ensure_bind_eq_ok.mp hbody
    exact ⟨(ensure_bind_eq_ok.mp hbody).1, hlen⟩
  · rintro ⟨hsize, hlen⟩
    exact ⟨hlen, bind_eq_ok.mpr ⟨c, rfl, bind_eq_ok.mpr ⟨(), ensure_eq_ok.mpr h.id, bind_eq_ok.mpr ⟨(), hdigests,
      ensure_bind_eq_ok.mpr ⟨h.root, ensure_bind_eq_ok.mpr ⟨hsize, bind_eq_ok.mpr ⟨(), hpeers, rfl⟩⟩⟩⟩⟩⟩⟩

/-- What is read is valid. -/
theorem valid_of_parse {c : Registration} {bytes : Bytes} (h : parse bytes = .ok c) : c.Valid ∧ c.peers.size ≤ 128 := by
  obtain ⟨-, h⟩ := ensure_bind_eq_ok.mp h
  obtain ⟨c', -, h⟩ := bind_eq_ok.mp h
  obtain ⟨⟨⟩, hid, h⟩ := bind_eq_ok.mp h
  obtain ⟨⟨⟩, hdigests, h⟩ := bind_eq_ok.mp h
  obtain ⟨hroot, h⟩ := ensure_bind_eq_ok.mp h
  obtain ⟨hsize, h⟩ := ensure_bind_eq_ok.mp h
  obtain ⟨⟨⟩, hpeers, h⟩ := bind_eq_ok.mp h
  obtain rfl := pure_eq_ok.mp h
  have hdigests := forM_eq_ok.mp hdigests
  refine ⟨⟨ensure_eq_ok.mp hid, ensure_eq_ok.mp (hdigests _ (by simp)), ensure_eq_ok.mp (hdigests _ (by simp)),
    ensure_eq_ok.mp (hdigests _ (by simp)), hroot, fun peer hp => ?_⟩, hsize⟩
  exact ensure_eq_ok.mp (forM_eq_ok.mp hpeers peer (Std.ExtTreeSet.mem_toList.mpr hp))

/-- An array of short strings has a short text. -/
theorem length_prettyItems_le {l : List Json} {n indent : ℕ} (h : ∀ j ∈ l, (j.pretty indent).length ≤ n) :
    (Json.prettyItems indent l).length ≤ l.length * (n + 2 + 2 * indent) := by
  induction l with
  | nil => simp [Json.prettyItems]
  | cons j l ih =>
    have hj := h j (by simp)
    have hrest := ih fun j hj => h j (by simp [hj])
    rw [List.length_cons, Nat.succ_mul]
    cases l with
    | nil =>
      rw [Json.prettyItems]
      omega
    | cons k l =>
      simp only [Json.prettyItems, Json.newline, List.length_append, List.length_cons, List.length_replicate]
      simp only [List.length_cons] at hrest
      omega

/-- With at most 128 peers, and a path as long as the system takes, a text is not too long. -/
theorem length_text_le {c : Registration} (h : c.Valid) (hroot : c.root.utf8ByteSize ≤ 4095)
    (hpeers : c.peers.size ≤ 128) : c.text.length ≤ maxText := by
  have hash {s : String} (hs : isHash s = true) : (Json.quoted s).length ≤ 386 := by
    have hlen := Json.length_quoted_le s
    have hsize : s.utf8ByteSize = 64 := by
      rw [isHash, Bool.and_eq_true, decide_eq_true_eq] at hs
      exact hs.1
    omega
  have key (s : String) (hs : s.utf8ByteSize ≤ 8) : (Json.quoted s).length ≤ 50 := by
    have hlen := Json.length_quoted_le s
    omega
  have hitems : (Json.prettyItems (0 + 1 + 1) (c.peers.toList.map .str)).length ≤ 128 * 392 := by
    refine (@length_prettyItems_le _ 386 _ fun j hj => ?_).trans (Nat.mul_le_mul_right _ ?_)
    · obtain ⟨peer, hp, rfl⟩ := List.mem_map.mp hj
      exact hash (h.peers peer (Std.ExtTreeSet.mem_toList.mp hp))
    · rw [List.length_map, Std.ExtTreeSet.length_toList]
      exact hpeers
  have harray : (Json.pretty (0 + 1) (.arr (c.peers.toList.map .str))).length ≤ 128 * 392 + 10 := by
    rw [Json.pretty]
    split_ifs
    · simp
    · simp only [Json.newline, List.length_append, List.length_cons, List.length_replicate, List.length_nil]
      omega
  have hid := Json.length_quoted_le c.id
  have hplain : c.id.utf8ByteSize ≤ 64 := by
    have hplain := h.id
    simp only [plainName, decide_eq_true_eq] at hplain
    exact hplain.2.1
  have hmode : (Json.quoted (modeName c.mode)).length ≤ 100 := by
    have hlen := Json.length_quoted_le (modeName c.mode)
    have hname : (modeName c.mode).utf8ByteSize ≤ 13 := by cases c.mode <;> decide
    omega
  have hpath := Json.length_quoted_le c.root
  have hidentity := hash h.identity
  have hepoch := hash h.epoch
  have hmarker := hash h.marker
  have h1 := key "id" (by decide)
  have h2 := key "root" (by decide)
  have h3 := key "identity" (by decide)
  have h4 := key "epoch" (by decide)
  have h5 := key "marker" (by decide)
  have h6 := key "mode" (by decide)
  have h7 := key "peers" (by decide)
  have hstr (s : String) (indent : ℕ) : Json.pretty indent (.str s) = Json.quoted s := by
    rw [Json.pretty, Json.render]
  rw [text, toJson, Json.pretty]
  simp only [List.isEmpty_cons, Bool.false_eq_true, if_false, Json.prettyMembers, hstr, Json.newline,
    List.length_append, List.length_cons, List.length_replicate, List.length_nil, maxText]
  omega

/-- The text of a configuration is as long under another generation. -/
theorem length_text_epoch {c : Registration} {epoch : String} (h : isHash c.epoch = true) (hepoch : isHash epoch = true) :
    ({ c with epoch := epoch } : Registration).text.length = c.text.length := by
  have hstr (s : String) (indent : ℕ) : Json.pretty indent (.str s) = Json.quoted s := by
    rw [Json.pretty, Json.render]
  rw [text, text, toJson, toJson, Json.pretty, Json.pretty]
  simp only [List.isEmpty_cons, Bool.false_eq_true, if_false, Json.prettyMembers, hstr, List.length_append, List.length_cons,
    length_quoted_of_isHash h, length_quoted_of_isHash hepoch]

/-- A configuration that is read is read under another generation. -/
theorem parse_setEpoch {c : Registration} {epoch : String} (h : parse c.text = .ok c) (hepoch : isHash epoch = true) :
    parse ({ c with epoch := epoch } : Registration).text = .ok { c with epoch := epoch } := by
  have hvalid := (valid_of_parse h).1
  obtain ⟨hpeers, hlen⟩ := (parse_text hvalid).mp h
  have hnext : ({ c with epoch := epoch } : Registration).Valid :=
    ⟨hvalid.id, hvalid.identity, hepoch, hvalid.marker, hvalid.root, hvalid.peers⟩
  refine (parse_text hnext).mpr ⟨hpeers, ?_⟩
  rw [length_text_epoch hvalid.epoch hepoch]
  exact hlen

/-- A text that is cut off is not read. -/
theorem parse_cut {c : Registration} {p q : Bytes} (h : p ++ q = c.text) (hq : q ≠ []) (c' : Registration) :
    parse p ≠ .ok c' := by
  intro hp
  obtain ⟨-, hp⟩ := ensure_bind_eq_ok.mp hp
  obtain ⟨_, hnone, -⟩ := bind_eq_ok.mp hp
  rw [decode, Json.parse_pretty_truncated h hq] at hnone
  cases hnone

end Registration

/-! ### The state of a device -/

/-- What is found where a file should be. -/
inductive Stored where
  /-- A file. -/
  | file (bytes : Bytes)
  /-- A link, a directory or a device. -/
  | other
  deriving DecidableEq

/-- The directory of a share. -/
structure Slot where
  /-- What its configuration file holds. -/
  config : Option Bytes
  /-- The configuration that an index recovery is going to write. -/
  intent : Option Registration
  /-- The directory of the objects is there. -/
  objects : Bool
  /-- The index is there. -/
  index : Bool
  deriving DecidableEq

/-- A path as it is written into a configuration. -/
def absolute (root : FilePath) : String := "/" ++ "/".intercalate root

/-- A path that the system takes. -/
structure Real (p : FilePath) : Prop where
  /-- Its names are names. -/
  names : ∀ x ∈ p, x ≠ "" ∧ '/' ∉ x.toList
  /-- It is not too long. -/
  length : (absolute p).utf8ByteSize ≤ 4095

/-- A device, as far as its registry goes: its state and the folders that may be shared. -/
structure World where
  /-- Where the state is. -/
  state : FilePath
  /-- The certificate of the device. -/
  identityDer : Option Bytes
  /-- The directories of the shares. -/
  shares : Std.ExtTreeMap String Slot
  /-- The peers whose certificates are there. -/
  trusted : String → Bool
  /-- What is a directory. -/
  isDir : FilePath → Bool
  /-- Its path is one that the system takes. -/
  real : ∀ p, isDir p = true → Real p
  /-- The markers of folders. -/
  marker : FilePath → Option Bytes

/-- An identifier as `random_id` makes it. -/
abbrev Digest := { s : String // isHash s = true }

/-- One is in the other. -/
abbrev Overlap (a b : FilePath) : Prop := a <+: b ∨ b <+: a

namespace Registration

/-- The path of the folder. -/
def rootPath (c : Registration) : FilePath := (components c.root).filter (· ≠ "")

end Registration

/-- Read the configuration of a share. -/
def Slot.readConfig (slot : Slot) : Result Registration :=
  match slot.config with
  | some bytes => Registration.parse bytes
  | none => .error (.io .notFound)

namespace World

/-- The check that a folder is apart from all registered ones. -/
def clearOf (w : World) (text : String) (path : FilePath) : Result Unit :=
  w.shares.toList.forM fun e => do
    let config ← e.2.readConfig
    ensure (¬ Overlap path config.rootPath) text

/-- The check that a checkpoint is apart from the state and all folders. -/
def noOverlap (w : World) (path : FilePath) : Result Unit := do
  ensure (¬ Overlap path w.state) "checkpoint and device state must not overlap"
  w.clearOf "checkpoint and data roots must not overlap" path

/-- Change what is in the directory of a share. -/
def change (id : String) (f : Slot → Result Slot) (w : World) : Result Unit × World :=
  match w.shares[id]? with
  | none => (.error (.io .notFound), w)
  | some slot =>
    match f slot with
    | .error e => (.error e, w)
    | .ok slot => (.ok (), { w with shares := w.shares.insert id slot })

/-- Make the directory of a share. -/
def makeDirectory (id : String) (w : World) : Result Unit × World :=
  if id ∈ w.shares then (.error (.message "share already exists"), w)
  else (.ok (), { w with shares := w.shares.insert id ⟨none, none, false, false⟩ })

/-- Make the marker of a folder. -/
def makeMarker (root : FilePath) (w : World) : Result Unit × World :=
  match w.marker root with
  | some _ => (.error (.io .alreadyExists), w)
  | none => (.ok (), { w with marker := Function.update w.marker root (some []) })

/-- Write a byte of it. -/
def appendMarker (root : FilePath) (b : UInt8) (w : World) : Result Unit × World :=
  (.ok (), { w with marker := Function.update w.marker root ((w.marker root).map (· ++ [b])) })

/-- Read the certificate of the device. -/
def readIdentity (w : World) : Result Bytes × World :=
  match w.identityDer with
  | some der => (.ok der, w)
  | none => (.error (.io .notFound), w)

/-- Make a configuration file. -/
def newConfig (slot : Slot) : Result Slot :=
  match slot.config with
  | some _ => .error (.io .alreadyExists)
  | none => .ok { slot with config := some [] }

/-- Write a byte of it. -/
def appendConfig (b : UInt8) (slot : Slot) : Result Slot := .ok { slot with config := slot.config.map (· ++ [b]) }

variable (P : Platform)

/-- The check of a share that is opened. -/
def openShare (w : World) (id : String) : Result Registration := do
  match w.shares[id]? with
  | none => .error (.io .notFound)
  | some slot => do
    let config ← slot.readConfig
    ensure (config.id = id) "share identifier mismatch"
    ensure (w.identityDer.any fun der => config.identity = P.blake3 der) "share device identity changed"
    ensure (slot.index = true) "unsafe share index"
    ensure (w.marker config.rootPath = some (utf8 config.marker)) "share mount identity changed"
    pure config

/-- Resolve the path of a folder: it is one already. -/
def canonicalize (w : World) (root : FilePath) : Result Unit := if w.isDir root then .ok () else .error (.io .notFound)

/-- The checks before a share is created. -/
def creatable (w : World) (id : String) (root : FilePath) : Result Unit := do
  validId id
  w.canonicalize root
  ensure (¬ Overlap root w.state) "state and share roots must not overlap"
  w.clearOf "share roots must not overlap" root
  ensure (id ∉ w.shares) "share already exists"
  ensure (w.marker root = none) "share root already contains a folder marker"

/-- The configuration of a new share. -/
def initial (id : String) (root : FilePath) (mode : Mode) (marker epoch : Digest) (der : Bytes) : Registration :=
  ⟨id, absolute root, P.blake3 der, epoch, marker, mode, ∅⟩

/-- Create a share. -/
def create (id : String) (root : FilePath) (mode : Mode) (marker epoch : Digest) :
    Fallible Error World Registration := do
  let w ← Fallible.look fun w => w
  w.creatable id root
  Fallible.act (makeDirectory id)
  Fallible.act (makeMarker root)
  (utf8 marker).forM fun b => Fallible.act (appendMarker root b)
  let der ← Fallible.act readIdentity
  Fallible.act (change id fun slot => .ok { slot with objects := true })
  Fallible.act (change id newConfig)
  (initial P id root mode marker epoch der).text.forM fun b => Fallible.act (change id (appendConfig b))
  Fallible.act (change id fun slot => .ok { slot with index := true })
  let w ← Fallible.look fun w => w
  w.openShare P id

/-! ### The stages of a creation -/

/-- A share is being created: what is in its directory, and the marker. -/
def stage (w : World) (id : String) (root : FilePath) (slot : Slot) (marker : Option Bytes) : World :=
  { w with shares := w.shares.insert id slot, marker := Function.update w.marker root marker }

section

variable {P} {w w' : World} {id : String} {root : FilePath} {mode : Mode} {marker epoch : Digest} {slot : Slot}
  {m : Option Bytes}

theorem insert_insert (shares : Std.ExtTreeMap String Slot) (slot slot' : Slot) :
    (shares.insert id slot).insert id slot' = shares.insert id slot' := by
  refine Std.ExtTreeMap.ext_getElem? fun k => ?_
  simp only [Std.ExtTreeMap.getElem?_insert]
  split_ifs <;> rfl

theorem change_stage {f : Slot → Result Slot} {slot' : Slot} (h : f slot = .ok slot') :
    change id f (w.stage id root slot m) = (.ok (), w.stage id root slot' m) := by
  have hget : (w.stage id root slot m).shares[id]? = some slot := by simp [stage]
  simp only [change, hget, h]
  simp only [stage, insert_insert]

theorem makeDirectory_eq (hid : id ∉ w.shares) (hmarker : w.marker root = none) :
    makeDirectory id w = (.ok (), w.stage id root ⟨none, none, false, false⟩ none) := by
  rw [makeDirectory, if_neg hid, stage, ← hmarker, Function.update_eq_self]

theorem makeMarker_stage : makeMarker root (w.stage id root slot none) = (.ok (), w.stage id root slot (some [])) := by
  simp [makeMarker, stage]

theorem appendMarker_stage (b : UInt8) (bytes : Bytes) : appendMarker root b (w.stage id root slot (some bytes)) =
    (.ok (), w.stage id root slot (some (bytes ++ [b]))) := by
  simp [appendMarker, stage]

/-- Where a creation may stop: nothing has happened, or the directory was made, and its configuration is not there,
or a part of it. -/
def Stopped (w : World) (id : String) (root : FilePath) (text : Bytes) (s : World) : Prop :=
  s = w ∨ w.creatable id root = .ok () ∧ ∃ slot m, s = w.stage id root slot m ∧
    ∀ p, slot.config = some p → p <+: text

/-- A step between two known states. -/
theorem at_act {α : Type} {I : World → Prop} {err : Error → World → Prop} {f : World → Result α × World} {s t : World}
    {a : α} (hs : I s) (ht : I t) (h : f s = (.ok a, t)) :
    Triple (alone I) (· = s) (Fallible.act f) (outcome (fun b u => u = t ∧ b = a) err) := by
  refine (@Triple.alone_act _ _ _ _ (fun r u => r = .ok a ∧ u = t) _ (by rintro _ rfl; exact hs) (fun r u hu => ?_)
    fun u hu => ?_).conseq (fun _ h => h) fun r u hu => ?_
  · rw [hu.2]
    exact ht
  · rw [hu, h]
    exact ⟨rfl, rfl⟩
  · obtain ⟨rfl, rfl⟩ := hu
    exact ⟨rfl, rfl⟩

theorem at_look {I : World → Prop} {err : Error → World → Prop} {s : World} (hs : I s) :
    Triple (alone I) (· = s) (Fallible.look (fun w => w) : Fallible Error World World)
      (outcome (fun b u => u = s ∧ b = s) err) :=
  at_act (f := fun w => (.ok w, w)) hs hs rfl

/-- Bytes are written one after the other. -/
theorem at_forM {I : World → Prop} {err : Error → World → Prop} {f : UInt8 → World → Result Unit × World}
    {g : Bytes → World} {bytes : Bytes} (hI : ∀ p, p <+: bytes → I (g p))
    (h : ∀ p b, f b (g p) = (.ok (), g (p ++ [b]))) :
    Triple (alone I) (· = g []) (bytes.forM fun b => Fallible.act (f b) : Fallible Error World Unit)
      (outcome (fun _ u => u = g bytes) err) := by
  have loop (done rest : Bytes) (hI : ∀ p, p <+: done ++ rest → I (g p)) :
      Triple (alone I) (· = g done) (rest.forM fun b => Fallible.act (f b) : Fallible Error World Unit)
        (outcome (fun _ u => u = g (done ++ rest)) err) := by
    induction rest generalizing done with
    | nil =>
      rintro _ rfl s hs
      obtain rfl := alone_star hs
      exact ⟨hI _ (by simp), by rw [List.append_nil]; rfl⟩
    | cons b rest ih =>
      have hsplit : done ++ b :: rest = done ++ [b] ++ rest := by simp
      refine (at_act (hI _ (List.prefix_append _ _)) (hI (done ++ [b]) (by rw [hsplit]; exact List.prefix_append _ _))
        (h done b)).andThen fun _ => ?_
      rw [hsplit] at hI ⊢
      exact (ih (done ++ [b]) hI).conseq (fun _ h => h.1) fun _ _ h => h
  exact loop [] bytes hI

/-- What the configuration of a new share says. -/
def newText (P : Platform) (w : World) (id : String) (root : FilePath) (mode : Mode) (marker epoch : Digest) : Bytes :=
  (initial P id root mode marker epoch (w.identityDer.getD [])).text

/-- A share that has been created, but for the check at its end. -/
def created (P : Platform) (w : World) (id : String) (root : FilePath) (mode : Mode) (marker epoch : Digest) : World :=
  w.stage id root ⟨some (w.newText P id root mode marker epoch), none, true, true⟩ (some (utf8 marker))

/-- A creation that is not refused gets through, and ends in the check of the share. -/
theorem create_meets (hok : w.creatable id root = .ok ()) (hid : id ∉ w.shares) (hmarker : w.marker root = none)
    {der : Bytes} (hder : w.identityDer = some der) :
    Meets (alone (Stopped w id root (w.newText P id root mode marker epoch))) (create P id root mode marker epoch)
      (fun r s => r = (w.created P id root mode marker epoch).openShare P id ∧
        s = w.created P id root mode marker epoch) w := by
  have hw : Stopped w id root (w.newText P id root mode marker epoch) w := .inl rfl
  have hstage (slot : Slot) (m : Option Bytes) (h : ∀ p, slot.config = some p → p <+: w.newText P id root mode marker epoch) :
      Stopped w id root (w.newText P id root mode marker epoch) (w.stage id root slot m) := .inr ⟨hok, slot, m, rfl, h⟩
  have hnone (objects : Bool) (m : Option Bytes) : Stopped w id root (w.newText P id root mode marker epoch)
      (w.stage id root ⟨none, none, objects, false⟩ m) := hstage _ _ fun p h => by cases h
  have hsome {p : Bytes} (objects index : Bool) (m : Option Bytes) (h : p <+: w.newText P id root mode marker epoch) :
      Stopped w id root (w.newText P id root mode marker epoch) (w.stage id root ⟨some p, none, objects, index⟩ m) :=
    hstage _ _ fun q hq => by obtain rfl := Option.some.inj hq; exact h
  have hread : readIdentity (w.stage id root ⟨none, none, false, false⟩ (some (utf8 marker))) =
      (.ok der, w.stage id root ⟨none, none, false, false⟩ (some (utf8 marker))) := by
    simp [readIdentity, stage, hder]
  have htext : w.newText P id root mode marker epoch = (initial P id root mode marker epoch der).text := by
    rw [newText, hder, Option.getD_some]
  have hmeets : Triple (alone (Stopped w id root (w.newText P id root mode marker epoch))) (· = w)
      (create P id root mode marker epoch)
      (outcome (fun c s => s = w.created P id root mode marker epoch ∧
        (w.created P id root mode marker epoch).openShare P id = .ok c) fun e s =>
          s = w.created P id root mode marker epoch ∧
            (w.created P id root mode marker epoch).openShare P id = .error e) := by
    rw [create]
    refine (at_look hw).andThen fun w₁ => Triple.fact fun hw₁ => ?_
    subst hw₁
    rw [hok]
    refine (at_act hw (hnone _ _) (makeDirectory_eq hid hmarker)).andThen fun _ => Triple.fact fun _ => ?_
    refine (at_act (hnone _ _) (hnone _ _) makeMarker_stage).andThen fun _ => Triple.fact fun _ => ?_
    refine (at_forM (g := fun p => w₁.stage id root ⟨none, none, false, false⟩ (some p)) (fun _ _ => hnone _ _)
      fun p b => appendMarker_stage b p).andThen fun _ => ?_
    refine (at_act (hnone _ _) (hnone _ _) hread).andThen fun der' => Triple.fact fun hder' => ?_
    subst hder'
    refine (at_act (hnone _ _) (hnone true _)
      (change_stage (f := fun slot => .ok { slot with objects := true }) rfl)).andThen fun _ => Triple.fact fun _ => ?_
    refine (at_act (hnone _ _) (hsome true false _ List.nil_prefix) (change_stage (f := newConfig) rfl)).andThen
      fun _ => Triple.fact fun _ => ?_
    rw [← htext]
    refine (at_forM (g := fun p => w₁.stage id root ⟨some p, none, true, false⟩ (some (utf8 marker)))
      (fun p hp => hsome _ _ _ hp) fun p b => change_stage (f := appendConfig b) rfl).andThen fun _ => ?_
    have hfinal := hsome true true (some (utf8 marker)) List.prefix_rfl
    refine (at_act (hsome _ _ _ List.prefix_rfl) hfinal
      (change_stage (f := fun slot => .ok { slot with index := true }) rfl)).andThen fun _ => Triple.fact fun _ => ?_
    refine (at_look hfinal).andThen fun w₂ => Triple.fact fun hw₂ => ?_
    subst hw₂
    refine Triple.ofExcept (alone_stable _) (by rintro _ rfl; exact hfinal) ?_
    rintro _ rfl
    cases hopen : openShare P (w₁.stage id root ⟨some (w₁.newText P id root mode marker epoch), none, true, true⟩
      (some (utf8 marker))) id with
    | error e => exact ⟨rfl, hopen⟩
    | ok c => exact ⟨rfl, hopen⟩
  refine (hmeets w rfl).mono fun r s hr => ?_
  cases r with
  | error e => exact ⟨hr.2.symm, hr.1⟩
  | ok c => exact ⟨hr.2.symm, hr.1⟩

/-! ### What a creation needs -/

/-- Every configuration is read, and is of a folder apart from the path. -/
def Clear (w : World) (path : FilePath) : Prop :=
  ∀ (id : String) (slot : Slot), w.shares[id]? = some slot → ∃ c, slot.readConfig = .ok c ∧ ¬ Overlap path c.rootPath

theorem clearOf_eq_ok {text : String} {path : FilePath} : w.clearOf text path = .ok () ↔ w.Clear path := by
  rw [clearOf, forM_eq_ok]
  constructor
  · intro h id slot hslot
    obtain ⟨c, hc, hp⟩ := bind_eq_ok.mp (h (id, slot) (Std.ExtTreeMap.mem_toList_iff_getElem?_eq_some.mpr hslot))
    exact ⟨c, hc, ensure_eq_ok.mp hp⟩
  · rintro h ⟨id, slot⟩ he
    obtain ⟨c, hc, hp⟩ := h id slot (Std.ExtTreeMap.mem_toList_iff_getElem?_eq_some.mp he)
    exact bind_eq_ok.mpr ⟨c, hc, ensure_eq_ok.mpr hp⟩

theorem noOverlap_eq_ok {path : FilePath} : w.noOverlap path = .ok () ↔ ¬ Overlap path w.state ∧ w.Clear path := by
  rw [noOverlap, ensure_bind_eq_ok, clearOf_eq_ok]

/-- What a folder has to be. -/
structure Creatable (w : World) (id : String) (root : FilePath) : Prop where
  /-- The name is plain. -/
  plain : plainName id = true
  /-- The folder is a directory. -/
  isDir : w.isDir root = true
  /-- It is apart from the state. -/
  apart : ¬ Overlap root w.state
  /-- It is apart from the other folders. -/
  clear : w.Clear root
  /-- The name is new. -/
  fresh : id ∉ w.shares
  /-- The folder has no marker. -/
  unmarked : w.marker root = none

theorem creatable_eq_ok : w.creatable id root = .ok () ↔ w.Creatable id root := by
  constructor
  · intro h
    obtain ⟨⟨⟩, hplain, h⟩ := bind_eq_ok.mp h
    obtain ⟨⟨⟩, hdir, h⟩ := bind_eq_ok.mp h
    obtain ⟨hapart, h⟩ := ensure_bind_eq_ok.mp h
    obtain ⟨⟨⟩, hclear, h⟩ := bind_eq_ok.mp h
    obtain ⟨hfresh, h⟩ := ensure_bind_eq_ok.mp h
    refine ⟨ensure_eq_ok.mp hplain, ?_, hapart, clearOf_eq_ok.mp hclear, hfresh, ensure_eq_ok.mp h⟩
    by_contra hnot
    rw [canonicalize, if_neg hnot] at hdir
    cases hdir
  · rintro ⟨hplain, hdir, hapart, hclear, hfresh, hmarker⟩
    refine bind_eq_ok.mpr ⟨(), ensure_eq_ok.mpr hplain, bind_eq_ok.mpr ⟨(), ?_, ensure_bind_eq_ok.mpr ⟨hapart,
      bind_eq_ok.mpr ⟨(), clearOf_eq_ok.mpr hclear, ensure_bind_eq_ok.mpr ⟨hfresh, ensure_eq_ok.mpr hmarker⟩⟩⟩⟩⟩
    rw [canonicalize, if_pos hdir]

/-- The path in a configuration is the path of the folder. -/
theorem components_absolute (h : ∀ x ∈ root, x ≠ "" ∧ '/' ∉ x.toList) :
    (components (absolute root)).filter (· ≠ "") = root := by
  have hfilter : root.filter (· ≠ "") = root := List.filter_eq_self.mpr fun x hx => by simpa using (h x hx).1
  cases root with
  | nil => decide
  | cons x l =>
    have hentry : absolute (x :: l) = Archive.entryName ("" :: x :: l) := by
      rw [absolute, Archive.entryName, String.intercalate_cons_cons, String.empty_append]
    rw [hentry, Archive.components_entryName (List.cons_ne_nil _ _) fun y hy => ?_]
    · exact hfilter
    · rcases List.mem_cons.mp hy with rfl | hy
      · simp
      · exact (h y hy).2

variable {der : Bytes}

theorem initial_rootPath (hroot : Real root) : (initial P id root mode marker epoch der).rootPath = root :=
  components_absolute hroot.names

/-- The configuration of a new share is valid. -/
theorem valid_initial (hplain : plainName id = true) (hhash : isHash (P.blake3 der) = true) :
    (initial P id root mode marker epoch der).Valid where
  id := hplain
  identity := hhash
  epoch := epoch.2
  marker := marker.2
  root := by simp [initial, absolute]
  peers peer h := by simp [initial] at h

/-- It is read. -/
theorem parse_initial (hplain : plainName id = true) (hroot : Real root) (hhash : isHash (P.blake3 der) = true) :
    Registration.parse (initial P id root mode marker epoch der).text = .ok (initial P id root mode marker epoch der) := by
  have hvalid : (initial P id root mode marker epoch der).Valid := valid_initial hplain hhash
  have hsize : (initial P id root mode marker epoch der).peers.size ≤ 128 := by simp [initial]
  exact (Registration.parse_text hvalid).mpr ⟨hsize, Registration.length_text_le hvalid hroot.length hsize⟩

/-- The check at the end of a creation succeeds. -/
theorem openShare_created (h : w.Creatable id root) (hder : w.identityDer = some der)
    (hhash : isHash (P.blake3 der) = true) : (w.created P id root mode marker epoch).openShare P id =
      .ok (initial P id root mode marker epoch der) := by
  have hroot := w.real root h.isDir
  have hslot : (w.created P id root mode marker epoch).shares[id]? =
      some ⟨some (w.newText P id root mode marker epoch), none, true, true⟩ := by simp [created, stage]
  have hread : Slot.readConfig ⟨some (w.newText P id root mode marker epoch), none, true, true⟩ =
      .ok (initial P id root mode marker epoch der) := by
    rw [newText, hder]
    exact parse_initial h.plain hroot hhash
  rw [openShare, hslot]
  refine bind_eq_ok.mpr ⟨_, hread, ensure_bind_eq_ok.mpr ⟨rfl, ensure_bind_eq_ok.mpr ⟨?_, ensure_bind_eq_ok.mpr ⟨rfl,
    ensure_bind_eq_ok.mpr ⟨?_, rfl⟩⟩⟩⟩⟩
  · change (w.identityDer.any fun der' => P.blake3 der = P.blake3 der') = true
    simp [hder]
  · rw [initial_rootPath hroot]
    simp [created, stage, initial]

/-- A creation that is refused changes nothing. -/
theorem create_refused {I : World → Prop} (hw : I w) {e : Error} (h : w.creatable id root = .error e) :
    Meets (alone I) (create P id root mode marker epoch) (fun r s => r = .error e ∧ s = w) w := by
  have hmeets : Triple (alone I) (· = w) (create P id root mode marker epoch)
      (outcome (fun _ _ => False) fun e' s => e' = e ∧ s = w) := by
    rw [create]
    refine (at_look hw).andThen fun w₁ => Triple.fact fun hw₁ => ?_
    subst hw₁
    rw [h]
    refine Triple.andThen (Q := fun _ _ => False) ?_ fun _ s hs => hs.elim
    refine Triple.ofExcept (alone_stable _) (by rintro _ rfl; exact hw) ?_
    rintro _ rfl
    exact ⟨rfl, rfl⟩
  refine (hmeets w rfl).mono fun r s hr => ?_
  cases r with
  | error e' => exact ⟨congrArg _ hr.1, hr.2⟩
  | ok c => exact hr.elim

/-- A share is created just when it may be, and the certificate is there. -/
theorem run_create_eq_ok (hhash : ∀ der, isHash (P.blake3 der) = true) (hder : w.identityDer = some der) :
    (∃ c, (Fallible.run (create P id root mode marker epoch) w).1 = .ok c) ↔ w.Creatable id root := by
  rw [← creatable_eq_ok]
  constructor
  · rintro ⟨c, hc⟩
    cases h : w.creatable id root with
    | ok u => rfl
    | error e =>
      have hmeets : Meets (alone fun _ => True) (create P id root mode marker epoch) _ w := create_refused trivial h
      exact absurd (hmeets.run.1.symm.trans hc) (by simp)
  · intro h
    have hc := creatable_eq_ok.mp h
    have hmeets : Meets _ (create P id root mode marker epoch) _ w := create_meets h hc.fresh hc.unmarked hder
    exact ⟨_, hmeets.run.1.trans (openShare_created hc hder (hhash der))⟩

/-! ### What a failed creation leaves -/

/-- A step that fails. -/
theorem at_stop {α : Type} {I : World → Prop} {f : World → Result α × World} {s : World} {e : Error} (hs : I s)
    (h : f s = (.error e, s)) : Triple (alone I) (· = s) (Fallible.act f)
      (outcome (fun _ _ => False) fun _ _ => True) := by
  refine (@Triple.alone_act _ _ _ _ (fun r u => r = .error e ∧ u = s) _ (by rintro _ rfl; exact hs)
    (fun r u hu => ?_) fun u hu => ?_).conseq (fun _ h => h) fun r u hu => ?_
  · rw [hu.2]
    exact hs
  · rw [hu, h]
    exact ⟨rfl, rfl⟩
  · obtain ⟨rfl, rfl⟩ := hu
    trivial

/-- Wherever a creation stops, because it fails or because the program ends. When it does not fail, it has opened the
share. -/
theorem stopped_create : Meets (alone (Stopped w id root (w.newText P id root mode marker epoch)))
    (create P id root mode marker epoch) (fun r s => ∀ c, r = .ok c → s.openShare P id = .ok c) w := by
  have hw : Stopped w id root (w.newText P id root mode marker epoch) w := .inl rfl
  cases hok : w.creatable id root with
  | error e => exact (create_refused hw hok).mono fun r s hr c hc => by cases hr.1.symm.trans hc
  | ok u =>
    have hc := creatable_eq_ok.mp hok
    cases hder : w.identityDer with
    | some der =>
      refine (create_meets hok hc.fresh hc.unmarked hder).mono fun r s hr c hc => ?_
      rw [hr.2, ← hr.1, hc]
    | none =>
      have hnone (m : Option Bytes) : Stopped w id root (w.newText P id root mode marker epoch)
          (w.stage id root ⟨none, none, false, false⟩ m) := .inr ⟨hok, _, m, rfl, fun p h => by cases h⟩
      have hread : readIdentity (w.stage id root ⟨none, none, false, false⟩ (some (utf8 marker))) =
          (.error (.io .notFound), w.stage id root ⟨none, none, false, false⟩ (some (utf8 marker))) := by
        simp [readIdentity, stage, hder]
      have hmeets : Triple (alone (Stopped w id root (w.newText P id root mode marker epoch))) (· = w)
          (create P id root mode marker epoch) (outcome (fun _ _ => False) fun _ _ => True) := by
        rw [create]
        refine (at_look hw).andThen fun w₁ => Triple.fact fun hw₁ => ?_
        subst hw₁
        rw [hok]
        refine (at_act hw (hnone _) (makeDirectory_eq hc.fresh hc.unmarked)).andThen fun _ => Triple.fact fun _ => ?_
        refine (at_act (hnone _) (hnone _) makeMarker_stage).andThen fun _ => Triple.fact fun _ => ?_
        refine (at_forM (g := fun p => w₁.stage id root ⟨none, none, false, false⟩ (some p)) (fun _ _ => hnone _)
          fun p b => appendMarker_stage b p).andThen fun _ => ?_
        exact Triple.andThen (at_stop (hnone _) hread) fun _ _ h => h.elim
      refine (hmeets w rfl).mono fun r s hr c hc => ?_
      subst hc
      exact hr.elim

/-- The creation has not begun, or the configuration is written. -/
def Whole (w s : World) (id : String) (text : Bytes) : Prop :=
  s = w ∨ ∃ slot, s.shares[id]? = some slot ∧ slot.config = some text

theorem getElem?_stage (k : String) :
    (w.stage id root slot m).shares[k]? = if k = id then some slot else w.shares[k]? := by
  rw [stage, Std.ExtTreeMap.getElem?_insert]
  by_cases h : k = id
  · simp [h]
  · simp [h, Ne.symm h]

/-- A path is apart from all folders while a share is created just when the configuration of the new one is whole. -/
theorem clear_stage (hhash : ∀ der, isHash (P.blake3 der) = true) (hc : w.Creatable id root)
    (hslot : ∀ p, slot.config = some p → p <+: w.newText P id root mode marker epoch) {path : FilePath}
    (hclear : w.Clear path) (hpath : ¬ Overlap path root) : (w.stage id root slot m).Clear path ↔
      slot.config = some (w.newText P id root mode marker epoch) := by
  have hroot := w.real root hc.isDir
  constructor
  · intro h
    obtain ⟨c, hread, -⟩ := h id slot (by simp [getElem?_stage])
    rw [Slot.readConfig] at hread
    cases hp : slot.config with
    | none =>
      rw [hp] at hread
      cases hread
    | some p =>
      rw [hp] at hread
      obtain ⟨rest, hrest⟩ := hslot p hp
      by_cases hnil : rest = []
      · rw [← hrest, hnil, List.append_nil]
      · exact absurd hread (Registration.parse_cut hrest hnil c)
  · intro h k slot' hk
    rw [getElem?_stage] at hk
    split_ifs at hk
    · obtain rfl := Option.some.inj hk
      refine ⟨initial P id root mode marker epoch (w.identityDer.getD []), ?_, ?_⟩
      · rw [Slot.readConfig, h]
        exact parse_initial hc.plain hroot (hhash _)
      · rw [initial_rootPath hroot]
        exact hpath
    · exact hclear k slot' hk

/-- A share that could be opened can still be opened. -/
theorem openShare_stage (hc : w.Creatable id root) {k : String} {c : Registration} (h : w.openShare P k = .ok c) :
    (w.stage id root slot m).openShare P k = .ok c := by
  cases hk : w.shares[k]? with
  | none =>
    rw [openShare, hk] at h
    cases h
  | some slot' =>
    have hne : k ≠ id := by
      rintro rfl
      exact hc.fresh (Std.ExtTreeMap.mem_iff_isSome_getElem?.mpr (by rw [hk]; rfl))
    rw [openShare, hk] at h
    obtain ⟨c', hread, h⟩ := bind_eq_ok.mp h
    obtain ⟨hid, h⟩ := ensure_bind_eq_ok.mp h
    obtain ⟨hidentity, h⟩ := ensure_bind_eq_ok.mp h
    obtain ⟨hindex, h⟩ := ensure_bind_eq_ok.mp h
    obtain ⟨hmarker, h⟩ := ensure_bind_eq_ok.mp h
    have hroot : c'.rootPath ≠ root := by
      obtain ⟨c'', hread', hapart⟩ := hc.clear k slot' hk
      obtain rfl := Except.ok.inj (hread.symm.trans hread')
      rintro hroot
      exact hapart (.inl (by rw [hroot]))
    rw [openShare, getElem?_stage, if_neg hne, hk]
    refine bind_eq_ok.mpr ⟨c', hread, ensure_bind_eq_ok.mpr ⟨hid, ensure_bind_eq_ok.mpr ⟨hidentity,
      ensure_bind_eq_ok.mpr ⟨hindex, ensure_bind_eq_ok.mpr ⟨?_, h⟩⟩⟩⟩⟩
    rw [← hmarker]
    exact Function.update_of_ne hroot _ _

/-- What another folder has to be, wherever the creation has stopped. -/
theorem creatable_stage {id' : String} {root' : FilePath} (hid : id' ≠ id) (hroot : ¬ Overlap root' root)
    (h : w.Creatable id' root') : (w.stage id root slot m).Creatable id' root' ↔ (w.stage id root slot m).Clear root' := by
  refine ⟨fun h' => h'.clear, fun hclear => ⟨h.plain, h.isDir, h.apart, hclear, ?_, ?_⟩⟩
  · rw [Std.ExtTreeMap.mem_iff_isSome_getElem?, getElem?_stage, if_neg hid, ← Std.ExtTreeMap.mem_iff_isSome_getElem?]
    exact h.fresh
  · have hne : root' ≠ root := fun heq => hroot (.inl (by rw [heq]))
    exact (Function.update_of_ne hne _ _).trans h.unmarked

/-- **What a failed creation leaves.** The creation of a share has failed, or the program has ended in the middle of it,
at any point. Then a share with another name, of another folder, that could be created before can be created, with
whatever certificate, just when the creation had not made its directory or had written its configuration to the end;
the same goes for the check of the place of a checkpoint. The shares that could be opened can be opened. -/
theorem create_stopped (hhash : ∀ bytes, isHash (P.blake3 bytes) = true) (w s : World) (id : String) (root : FilePath)
    (mode : Mode) (marker epoch : Digest) (q : Fallible Error World Registration)
    (hreach : Prog.Reaches (fun _ _ => False) (create P id root mode marker epoch) w q s) :
    (∀ (id' : String) (root' : FilePath) (mode' : Mode) (marker' epoch' : Digest) (der : Bytes), id' ≠ id →
      ¬ Overlap root' root → w.creatable id' root' = .ok () →
        ((∃ c, (Fallible.run (create P id' root' mode' marker' epoch') { s with identityDer := some der }).1 = .ok c) ↔
          Whole w s id (w.newText P id root mode marker epoch))) ∧
    (∀ path, ¬ Overlap path root → w.noOverlap path = .ok () →
      (s.noOverlap path = .ok () ↔ Whole w s id (w.newText P id root mode marker epoch))) ∧
    ∀ k c, w.openShare P k = .ok c → s.openShare P k = .ok c := by
  have hsame (t : World) (der : Bytes) (id' : String) (root' : FilePath) :
      World.Creatable { t with identityDer := some der } id' root' ↔ t.Creatable id' root' :=
    ⟨fun h => ⟨h.plain, h.isDir, h.apart, h.clear, h.fresh, h.unmarked⟩,
      fun h => ⟨h.plain, h.isDir, h.apart, h.clear, h.fresh, h.unmarked⟩⟩
  rcases (stopped_create.reaches hreach).inv with rfl | ⟨hok, slot, m, rfl, hslot⟩
  · refine ⟨fun id' root' mode' marker' epoch' der _ _ hok => ?_, fun path _ hok => ?_, fun k c h => h⟩
    · rw [run_create_eq_ok hhash rfl, hsame]
      exact ⟨fun _ => .inl rfl, fun _ => creatable_eq_ok.mp hok⟩
    · exact ⟨fun _ => .inl rfl, fun _ => hok⟩
  · have hc := creatable_eq_ok.mp hok
    have hwhole : Whole w (w.stage id root slot m) id (w.newText P id root mode marker epoch) ↔
        slot.config = some (w.newText P id root mode marker epoch) := by
      constructor
      · rintro (h | ⟨slot', hslot', h⟩)
        · refine absurd ?_ hc.fresh
          rw [Std.ExtTreeMap.mem_iff_isSome_getElem?, ← h, getElem?_stage, if_pos rfl]
          rfl
        · rw [getElem?_stage, if_pos rfl] at hslot'
          rw [Option.some.inj hslot', h]
      · exact fun h => .inr ⟨slot, by simp [getElem?_stage], h⟩
    refine ⟨fun id' root' mode' marker' epoch' der hid hroot hok' => ?_, fun path hpath hok' => ?_,
      fun k c h => openShare_stage hc h⟩
    · have hc' := creatable_eq_ok.mp hok'
      rw [run_create_eq_ok hhash rfl, hsame, creatable_stage hid hroot hc', clear_stage hhash hc hslot hc'.clear hroot,
        hwhole]
    · obtain ⟨hapart, hclear⟩ := noOverlap_eq_ok.mp hok'
      rw [noOverlap_eq_ok, clear_stage hhash hc hslot hclear hpath, hwhole]
      exact ⟨fun h => h.2, fun h => ⟨hapart, h⟩⟩

/-- A device without shares, and two folders. -/
def newDevice : World where
  state := ["state"]
  identityDer := some []
  shares := ∅
  trusted _ := true
  isDir p := p = ["a"] ∨ p = ["b"]
  real p h := by
    rw [decide_eq_true_eq] at h
    rcases h with rfl | rfl
    · exact ⟨by simp, by decide⟩
    · exact ⟨by simp, by decide⟩
  marker _ := none

/-- A digest. -/
def sampleDigest : Digest := ⟨Platform.padded.blake3 [], Platform.padded_isHash []⟩

theorem creatable_newDevice {id : String} {root : FilePath} (hplain : plainName id = true)
    (hdir : newDevice.isDir root = true) (hapart : ¬ Overlap root ["state"]) : newDevice.Creatable id root :=
  ⟨hplain, hdir, hapart, fun _ _ h => by simp [newDevice] at h, by simp [newDevice], rfl⟩

/-- What its second program comes to, a sequence comes to. -/
theorem exists_reaches_bind {α β : Type} {p : Fallible Error World α} {f : α → Fallible Error World β} {s t u : World}
    {a : α} (h : Fallible.run p s = (.ok a, t)) (hf : ∃ q, Prog.Reaches (fun _ _ => False) (f a) t q u) :
    ∃ q, Prog.Reaches (fun _ _ => False) (Fallible.bind p f) s q u := by
  obtain ⟨q, hq⟩ := hf
  have hbind : Prog.Reaches (fun _ _ => False) (Fallible.bind p f) s (f a) _ := Fallible.reaches_bind (congrArg Prod.fst h)
  rw [h] at hbind
  exact ⟨q, hbind.trans hq⟩

/-- The program ends when the directory of the first share is made. -/
theorem reaches_directory : ∃ q, Prog.Reaches (fun _ _ => False)
    (create Platform.padded "a" ["a"] .bidirectional sampleDigest sampleDigest) newDevice q
      (newDevice.stage "a" ["a"] ⟨none, none, false, false⟩ none) := by
  have ha : newDevice.Creatable "a" ["a"] := creatable_newDevice (by decide) (by decide) (by decide)
  have hmade := makeDirectory_eq ha.fresh ha.unmarked
  refine exists_reaches_bind rfl ?_
  refine exists_reaches_bind (a := ()) (t := newDevice) (congrArg (·, newDevice) (creatable_eq_ok.mpr ha)) ?_
  exact exists_reaches_bind (a := ()) hmade ⟨_, .refl⟩

/-- A second share cannot be created when the program that created the first one has ended after the directory, and can be when it
has come to its end. -/
theorem create_stopped_directory :
    (∃ q s, Prog.Reaches (fun _ _ => False) (create Platform.padded "a" ["a"] .bidirectional sampleDigest sampleDigest)
      newDevice q s ∧ ¬ ∃ c, (Fallible.run (create Platform.padded "b" ["b"] .bidirectional sampleDigest sampleDigest)
        { s with identityDer := some [] }).1 = .ok c) ∧
    ∃ c, (Fallible.run (create Platform.padded "b" ["b"] .bidirectional sampleDigest sampleDigest)
      { (Fallible.run (create Platform.padded "a" ["a"] .bidirectional sampleDigest sampleDigest) newDevice).2 with
        identityDer := some [] }).1 = .ok c := by
  have hb : newDevice.creatable "b" ["b"] = .ok () :=
    creatable_eq_ok.mpr (creatable_newDevice (by decide) (by decide) (by decide))
  constructor
  · obtain ⟨q, hq⟩ := reaches_directory
    refine ⟨q, _, hq, fun h => ?_⟩
    have hwhole := ((create_stopped Platform.padded_isHash newDevice _ "a" ["a"] .bidirectional sampleDigest sampleDigest q
      hq).1 "b" ["b"] .bidirectional sampleDigest sampleDigest [] (by decide) (by decide) hb).mp h
    rcases hwhole with h | ⟨slot, hslot, hconfig⟩
    · have hshare := congrArg (fun w : World => w.shares["a"]?) h
      rw [getElem?_stage, if_pos rfl] at hshare
      simp [newDevice] at hshare
    · rw [getElem?_stage, if_pos rfl] at hslot
      obtain rfl := Option.some.inj hslot
      cases hconfig
  · refine ((create_stopped Platform.padded_isHash newDevice _ "a" ["a"] .bidirectional sampleDigest sampleDigest _
      (Prog.reaches_run _ _ _)).1 "b" ["b"] .bidirectional sampleDigest sampleDigest [] (by decide) (by decide) hb).mpr
        (.inr ?_)
    have hslot : ((Fallible.run (create Platform.padded "a" ["a"] .bidirectional sampleDigest sampleDigest)
        newDevice).2.shares["a"]?.bind fun slot => slot.config) =
          some (newDevice.newText .padded "a" ["a"] .bidirectional sampleDigest sampleDigest) := by decide +kernel
    exact Option.bind_eq_some_iff.mp hslot

/-- The program ends when the directory of the first share is made, and a second one cannot be created. -/
theorem create_blocked : ∃ q s, Prog.Reaches (fun _ _ => False)
    (create Platform.padded "a" ["a"] .bidirectional sampleDigest sampleDigest) newDevice q s ∧
      newDevice.creatable "b" ["b"] = .ok () ∧ ¬ Overlap ["b"] ["a"] ∧
      ¬ ∃ c, (Fallible.run (create Platform.padded "b" ["b"] .bidirectional sampleDigest sampleDigest) s).1 = .ok c := by
  have hb : newDevice.Creatable "b" ["b"] := creatable_newDevice (by decide) (by decide) (by decide)
  obtain ⟨q, hq⟩ := reaches_directory
  refine ⟨q, _, hq, creatable_eq_ok.mpr hb, by decide, ?_⟩
  rw [run_create_eq_ok Platform.padded_isHash rfl, creatable_stage (by decide) (by decide) hb]
  intro h
  obtain ⟨c, hread, -⟩ := h "a" _ (by rw [getElem?_stage, if_pos rfl])
  cases hread

end

end World

end Everywhere

