import Everywhere.Library.View
import Everywhere.Library.Framing
import Everywhere.Versions.Model

/-!
# Device archives

A backup of a device is a header and, for each folder, the files of a checkpoint: its manifest, its copy of the index
and its objects. All this is framed into one text (`encode`), which is encrypted; and what was decrypted is taken apart
again (`extract`) into an empty directory. Nothing that a text could say leads out of it.

* `extract_encode` — **what was framed comes back**: an equal header and the files byte for byte, and nothing else.
* `extract_sound` — **what is accepted is well formed**: one header and the records, of allowed names, each once.
* `archive_codec` — both.
-/

namespace Everywhere

open Library

/-- Which side of a job connects. -/
inductive Direction where
  /-- This one does. -/
  | connect
  /-- The other one does. -/
  | listen
  deriving DecidableEq

/-- A job that was configured. -/
structure JobConfig where
  /-- Its name. -/
  id : String
  /-- The folder that it exchanges. -/
  folder : String
  /-- The peer that it meets. -/
  peer : String
  /-- The host to connect to, or to listen on. -/
  host : String
  /-- The port. -/
  port : ℕ
  /-- Which side connects. -/
  direction : Direction
  /-- Whether it runs. -/
  enabled : Bool
  deriving DecidableEq

/-- What a device archive says first. -/
structure Header where
  /-- The version of the format. -/
  format : ℕ
  /-- The certificate of the device. -/
  certificate : Bytes
  /-- The key that it signs with. -/
  privateKey : Bytes
  /-- The certificates of the peers. -/
  peers : Std.ExtTreeMap String Bytes
  /-- The jobs. -/
  jobs : Std.ExtTreeMap String JobConfig
  /-- The folders. -/
  folders : Std.ExtTreeSet String
  deriving DecidableEq

/-- What the archive takes from elsewhere: the checks of certificates, and the JSON text of a header. -/
structure Formats where
  /-- The fingerprint of a certificate. -/
  fingerprint : Bytes → String
  /-- The check that a certificate and a key belong together. -/
  singleCert : Bytes → Bytes → Result Unit
  /-- The check that a certificate can be a root of trust. -/
  addRoot : Bytes → Result Unit
  /-- The text of a header. -/
  toVec : Header → Bytes
  /-- The header that a text is of. -/
  fromSlice : Bytes → Option Header

/-! ### Checks -/

/-- The characters of the name of a folder or a job. -/
def plainName (id : String) : Bool :=
  id ≠ "" ∧ id.utf8ByteSize ≤ 64 ∧ (utf8 id).all fun b =>
    (48 ≤ b && b ≤ 57) || (65 ≤ b && b ≤ 90) || (97 ≤ b && b ≤ 122) || b = 45 || b = 95

/-- The check of the name of a folder. -/
def validId (id : String) : Result Unit := ensure (plainName id) "invalid share identifier"

/-- The check of a fingerprint. -/
def validPeer (peer : String) : Result Unit := ensure (isHash peer) "invalid peer fingerprint"

/-- The check of a job. -/
def JobConfig.validate (config : JobConfig) : Result Unit := do
  [config.id, config.folder].forM fun id => ensure (plainName id) "invalid job or folder identifier"
  validPeer config.peer
  ensure (config.port ≠ 0) "managed jobs require an explicit nonzero port"

section

variable (F : Formats)

/-- The check of a header. -/
def Header.validate (self : Header) : Result Unit := do
  ensure (self.format = 1) "unsupported device archive format"
  ensure (self.folders.size ≤ 128 ∧ self.peers.size ≤ 128 ∧ self.jobs.size ≤ 32)
    "device archive exceeds configuration limits"
  ensure (self.certificate.length ≤ 65536 ∧ self.privateKey.length ≤ 65536) "identity too large"
  F.singleCert self.certificate self.privateKey
  self.folders.toList.forM validId
  self.peers.toList.forM fun e => do
    validPeer e.1
    ensure (e.2.length ≤ 65536 ∧ F.fingerprint e.2 = e.1) "invalid historical peer certificate"
    F.addRoot e.2
  self.jobs.toList.forM fun e => do
    e.2.validate
    ensure (e.1 = e.2.id ∧ e.2.folder ∈ self.folders) "invalid historical job binding"

end

namespace Archive

/-- The bytes that every archive begins with. -/
def magic : Bytes := utf8 "EVERYWHERE-DEVICE-1\n"

/-- The length of a header at most. -/
def maxHeader : ℕ := 4 * 1024 * 1024

/-- The name of a record. -/
def entryName (parts : List String) : String := "/".intercalate parts

/-! ### Writing -/

/-- A record. -/
def record (path : String) (data : Bytes) : Bytes :=
  be 4 (utf8 path).length ++ utf8 path ++ be 8 data.length ++ data

/-- The record of a file. -/
def writeRecord (fs : Files) (path : String) (source : FilePath) : Result Bytes := do
  let kind ← (fs.lookup source).mapError .io
  match kind with
  | .file i => pure (record path (fs.inode i).bytes)
  | .dir | .link _ | .special => .error (.message "expected a regular file")

/-- The records of a folder. -/
def encodeFolder (staging : FilePath) (fs : Files) (id : String) : Result Bytes := do
  let files ← ["manifest.json", "index.sqlite"].mapM fun name =>
    writeRecord fs (entryName ["folders", id, name]) (staging ++ ["folders", id, name])
  let entries ← (fs.entries (staging ++ ["folders", id, "objects"])).1.mapError .io
  let objects ← entries.mapM fun entry => do
    validPeer entry.1
    writeRecord fs (entryName ["folders", id, "objects", entry.1]) (staging ++ ["folders", id, "objects", entry.1])
  pure (files.flatten ++ objects.flatten)

/-- The text of an archive, before it is encrypted. -/
def encode (F : Formats) (header : Header) (staging : FilePath) (fs : Files) : Result Bytes := do
  let bytes := F.toVec header
  ensure (bytes.length ≤ maxHeader) "device header too large"
  let folders ← header.folders.toList.mapM (encodeFolder staging fs)
  pure (magic ++ be 4 bytes.length ++ bytes ++ folders.flatten ++ be 4 0)

/-! ### Reading -/

/-- Read so many bytes. -/
def readExact (n : ℕ) (input : Bytes) : Result (Bytes × Bytes) :=
  match takeExact n input with
  | some r => .ok r
  | none => .error (.io .unexpectedEof)

/-- Read a number. -/
def number (width : ℕ) (input : Bytes) : Result (ℕ × Bytes) := do
  let (bytes, input) ← readExact width input
  pure (ofBe bytes, input)

/-- The check of the name of a record. -/
def checkName (folders : Std.ExtTreeSet String) (name : String) : Result Unit := do
  let parts := components name
  ensure (3 ≤ parts.length ∧ parts[0]? = some "folders" ∧ (parts[1]?.all fun id => id ∈ folders))
    "unexpected archive path"
  match parts.drop 2 with
  | ["manifest.json"] | ["index.sqlite"] => pure ()
  | ["objects", hash] => validPeer hash
  | _ => .error (.message "unexpected archive path")

/-- Read the name and the size of a record, or find that there are no more. -/
def entry (folders : Std.ExtTreeSet String) (input : Bytes) : Result (Option (String × ℕ) × Bytes) := do
  let (length, input) ← number 4 input
  if length = 0 then
    return (none, input)
  ensure (length ≤ 256) "archive path too long"
  let (name, input) ← readExact length input
  match ofUtf8 name with
  | none => .error (.message "invalid utf-8 sequence")
  | some name => do
    checkName folders name
    let (size, input) ← number 8 input
    -- the manifest is bounded before decoding; content and index are streamed
    ensure ((components name)[2]? ≠ some "manifest.json" ∨ size ≤ 128 * 1024) "manifest too large"
    pure (some (name, size), input)

/-- Read the records, and make their files. Each record takes four bytes at least. -/
def records (staging : FilePath) (folders : Std.ExtTreeSet String) : ℕ → Bytes → Files → Result Bytes × Files
  | 0, _, fs => (.error (.io .unexpectedEof), fs)
  | n + 1, input, fs =>
    match entry folders input with
    | .error e => (.error e, fs)
    | .ok (none, input) => (.ok input, fs)
    | .ok (some (name, size), input) =>
      match fs.createNew (staging ++ components name) with
      | (.error _, fs) => (.error (.message "duplicate or unsafe archive entry"), fs)
      | (.ok file, fs) =>
        let fs := fs.write file (input.take size)
        if (input.take size).length = size then records staging folders n (input.drop size) fs
        else (.error (.message "truncated archive record"), fs)

/-- Make directories. -/
def privateDirs : List FilePath → Files → Result Unit × Files
  | [], fs => (.ok (), fs)
  | dir :: dirs, fs =>
    match fs.createDir dir with
    | (.error e, fs) => (.error (.io e), fs)
    | (.ok (), fs) => privateDirs dirs fs

/-- Read the header. -/
def readHeader (F : Formats) (input : Bytes) : Result (Header × Bytes) := do
  let (start, input) ← readExact magic.length input
  ensure (start = magic) "invalid device backup magic"
  let (length, input) ← number 4 input
  ensure (length ≤ maxHeader) "device header too large"
  let (bytes, input) ← readExact length input
  match F.fromSlice bytes with
  | none => .error (.message "invalid device archive header")
  | some header => do
    header.validate F
    pure (header, input)

/-- The directories of an archive. -/
def directories (staging : FilePath) (header : Header) : List FilePath :=
  (staging ++ ["folders"]) :: header.folders.toList.flatMap fun id =>
    [staging ++ ["folders", id], staging ++ ["folders", id, "objects"]]

/-- Take an archive apart into a directory. -/
def extract (F : Formats) (staging : FilePath) (input : Bytes) (fs : Files) : Result Header × Files :=
  match readHeader F input with
  | .error e => (.error e, fs)
  | .ok (header, input) =>
    match privateDirs (directories staging header) fs with
    | (.error e, fs) => (.error e, fs)
    | (.ok (), fs) =>
      match records staging header.folders (input.length + 1) input fs with
      | (.error e, fs) => (.error e, fs)
      | (.ok rest, fs) => (do ensure (rest = []) "trailing archive plaintext"; pure header, fs)

/-! ### What can be read -/

variable {F : Formats} {folders : Std.ExtTreeSet String} {input rest part : Bytes} {fs fs' : Files}
  {staging : FilePath}

theorem readExact_eq_ok {n : ℕ} : readExact n input = .ok (part, rest) ↔ part.length = n ∧ input = part ++ rest := by
  rw [← takeExact_eq_some, readExact]
  cases takeExact n input <;> simp

theorem number_eq_ok {width v : ℕ} :
    number width input = .ok (v, rest) ↔ v < 256 ^ width ∧ input = be width v ++ rest := by
  rw [number, bind_eq_ok]
  constructor
  · rintro ⟨⟨bytes, r⟩, h, he⟩
    obtain ⟨rfl, rfl⟩ := Prod.mk.inj (pure_eq_ok.mp he)
    obtain ⟨rfl, rfl⟩ := readExact_eq_ok.mp h
    exact ⟨ofBe_lt bytes, by rw [be_ofBe]⟩
  · rintro ⟨hv, rfl⟩
    exact ⟨(be width v, rest), readExact_eq_ok.mpr ⟨length_be _ _, rfl⟩, by dsimp only; rw [ofBe_be hv]; rfl⟩

/-- What the parts of the name of a record may be. -/
inductive Allowed (folders : Std.ExtTreeSet String) : List String → Prop where
  /-- The manifest of a folder. -/
  | manifest {id : String} : id ∈ folders → Allowed folders ["folders", id, "manifest.json"]
  /-- The copy of its index. -/
  | index {id : String} : id ∈ folders → Allowed folders ["folders", id, "index.sqlite"]
  /-- An object. -/
  | object {id hash : String} : id ∈ folders → isHash hash = true → Allowed folders ["folders", id, "objects", hash]

theorem checkName_eq_ok {name : String} : checkName folders name = .ok () ↔ Allowed folders (components name) := by
  rw [checkName, ensure_bind_eq_ok]
  constructor
  · rintro ⟨⟨hlen, hfirst, hid⟩, h⟩
    obtain ⟨a, b, c, l, hparts⟩ : ∃ a b c l, components name = a :: b :: c :: l := by
      match components name, hlen with
      | a :: b :: c :: l, _ => exact ⟨a, b, c, l, rfl⟩
    rw [hparts] at hfirst hid h ⊢
    obtain rfl : a = "folders" := by simpa using hfirst
    have hb : b ∈ folders := by simpa using hid
    simp only [List.drop_succ_cons, List.drop_zero] at h
    split at h
    · rename_i he
      rw [he]
      exact .manifest hb
    · rename_i he
      rw [he]
      exact .index hb
    · rename_i hash he
      rw [he]
      exact .object hb (ensure_eq_ok.mp h)
    · cases h
  · intro h
    generalize components name = parts at h
    cases h with
    | manifest hid | index hid => exact ⟨by simpa using hid, rfl⟩
    | object hid hhash => exact ⟨by simpa using hid, ensure_eq_ok.mpr hhash⟩

/-- A name and a size that a record may have. -/
structure Legal (folders : Std.ExtTreeSet String) (name : String) (size : ℕ) : Prop where
  /-- The name is not empty and not long. -/
  length : 0 < (utf8 name).length ∧ (utf8 name).length ≤ 256
  /-- It is one of those allowed. -/
  allowed : Allowed folders (components name)
  /-- The size is a number of 64 bits. -/
  range : size < 2 ^ 64
  /-- A manifest is bounded. -/
  manifest : (components name)[2]? = some "manifest.json" → size ≤ 128 * 1024

theorem entry_none : entry folders input = .ok (none, rest) ↔ input = be 4 0 ++ rest := by
  rw [entry, bind_eq_ok]
  constructor
  · rintro ⟨⟨length, r⟩, hlength, h⟩
    obtain ⟨-, rfl⟩ := number_eq_ok.mp hlength
    dsimp only at h
    split_ifs at h with h0
    · obtain ⟨-, rfl⟩ := Prod.mk.inj (pure_eq_ok.mp h)
      rw [h0]
    · obtain ⟨-, h⟩ := ensure_bind_eq_ok.mp h
      obtain ⟨⟨name, r'⟩, -, h⟩ := bind_eq_ok.mp h
      dsimp only at h
      split at h
      · cases h
      · obtain ⟨-, -, h⟩ := bind_eq_ok.mp h
        obtain ⟨⟨size, r''⟩, -, h⟩ := bind_eq_ok.mp h
        obtain ⟨-, h⟩ := ensure_bind_eq_ok.mp h
        cases h
  · rintro rfl
    exact ⟨(0, rest), number_eq_ok.mpr ⟨by decide, rfl⟩, rfl⟩

theorem entry_some {name : String} {size : ℕ} : entry folders input = .ok (some (name, size), rest) ↔
    Legal folders name size ∧ input = be 4 (utf8 name).length ++ utf8 name ++ be 8 size ++ rest := by
  rw [entry, bind_eq_ok]
  constructor
  · rintro ⟨⟨length, r⟩, hlength, h⟩
    obtain ⟨-, rfl⟩ := number_eq_ok.mp hlength
    dsimp only at h
    split_ifs at h with h0
    · cases h
    obtain ⟨hle, h⟩ := ensure_bind_eq_ok.mp h
    obtain ⟨⟨bytes, r'⟩, hbytes, h⟩ := bind_eq_ok.mp h
    cases hname : ofUtf8 bytes with
    | none =>
      simp only [hname, reduceCtorEq] at h
    | some name' =>
    simp only [hname] at h
    obtain ⟨⟨⟩, hcheck, h⟩ := bind_eq_ok.mp h
    obtain ⟨⟨size', r''⟩, hsize, h⟩ := bind_eq_ok.mp h
    obtain ⟨hmanifest, h⟩ := ensure_bind_eq_ok.mp h
    obtain ⟨hpair, rfl⟩ := Prod.mk.inj (pure_eq_ok.mp h)
    obtain ⟨rfl, rfl⟩ := Prod.mk.inj (Option.some.inj hpair)
    obtain ⟨hlt, rfl⟩ := number_eq_ok.mp hsize
    obtain rfl := utf8_of_ofUtf8 hname
    obtain ⟨rfl, rfl⟩ := readExact_eq_ok.mp hbytes
    exact ⟨⟨⟨Nat.pos_of_ne_zero h0, hle⟩, checkName_eq_ok.mp hcheck, hlt,
      fun he => hmanifest.resolve_left fun hne => hne he⟩, by simp⟩
  · rintro ⟨hlegal, rfl⟩
    have hlength : (utf8 name).length < 256 ^ 4 := hlegal.length.2.trans_lt (by decide)
    refine ⟨((utf8 name).length, utf8 name ++ be 8 size ++ rest), number_eq_ok.mpr ⟨hlength, by simp⟩, ?_⟩
    dsimp only
    rw [if_neg hlegal.length.1.ne', ensure_bind_eq_ok]
    refine ⟨hlegal.length.2, bind_eq_ok.mpr ⟨(utf8 name, be 8 size ++ rest), readExact_eq_ok.mpr ⟨rfl, by simp⟩, ?_⟩⟩
    simp only [ofUtf8_utf8]
    exact bind_eq_ok.mpr ⟨(), checkName_eq_ok.mpr hlegal.allowed, bind_eq_ok.mpr ⟨(size, rest),
      number_eq_ok.mpr ⟨hlegal.range, rfl⟩, ensure_bind_eq_ok.mpr ⟨or_iff_not_imp_left.mpr fun h =>
        hlegal.manifest (not_not.mp h), rfl⟩⟩⟩

/-! ### The records -/

/-- Make the file of a record. -/
def create (staging : FilePath) (fs : Files) (e : String × Bytes) : Option Files :=
  match fs.createNew (staging ++ components e.1) with
  | (.ok file, fs) => some (fs.write file e.2)
  | (.error _, _) => none

/-- What is read as records is a sequence of records and the end, and their files are made. -/
theorem records_eq_ok {n : ℕ} : records staging folders n input fs = (.ok rest, fs') ↔
    ∃ rs : List (String × Bytes), rs.length < n ∧ (∀ e ∈ rs, Legal folders e.1 e.2.length) ∧
      input = (rs.flatMap fun e => record e.1 e.2) ++ be 4 0 ++ rest ∧ rs.foldlM (create staging) fs = some fs' := by
  induction n generalizing input fs with
  | zero => simp [records]
  | succ n ih =>
    rw [records]
    -- the first record, or the end, decides what the first part of the input is
    have hfirst (rs : List (String × Bytes)) (hlegal : ∀ e ∈ rs, Legal folders e.1 e.2.length)
        (hinput : input = (rs.flatMap fun e => record e.1 e.2) ++ be 4 0 ++ rest) :
        (rs = [] ∧ entry folders input = .ok (none, rest)) ∨ ∃ e rs', rs = e :: rs' ∧
          entry folders input = .ok (some (e.1, e.2.length),
            e.2 ++ ((rs'.flatMap fun e => record e.1 e.2) ++ be 4 0 ++ rest)) := by
      cases rs with
      | nil => exact .inl ⟨rfl, entry_none.mpr hinput⟩
      | cons e rs' =>
        refine .inr ⟨e, rs', rfl, entry_some.mpr ⟨hlegal e (by simp), ?_⟩⟩
        rw [hinput]
        simp [record]
    constructor
    · cases hentry : entry folders input with
      | error e => intro h; cases h
      | ok r =>
        obtain ⟨_ | ⟨name, size⟩, input'⟩ := r
        · intro h
          obtain ⟨hok, rfl⟩ := Prod.mk.inj h
          obtain rfl := Except.ok.inj hok
          exact ⟨[], by simp, by simp, entry_none.mp hentry, rfl⟩
        · dsimp only
          cases hc : fs.createNew (staging ++ components name) with
          | mk r fs₁ =>
            cases r with
            | error e => intro h; cases h
            | ok file =>
              dsimp only
              split_ifs with hsize
              · intro h
                obtain ⟨rs, hlen, hlegal, hinput, hfold⟩ := ih.mp h
                obtain ⟨hname, rfl⟩ := entry_some.mp hentry
                have hsplit : input'.take size ++ ((rs.flatMap fun e => record e.1 e.2) ++ be 4 0 ++ rest) = input' := by
                  rw [← hinput, List.take_append_drop]
                refine ⟨(name, input'.take size) :: rs, by simpa using hlen, ?_, ?_, ?_⟩
                · rintro e (_ | ⟨_, he⟩)
                  · rwa [hsize]
                  · exact hlegal e he
                · rw [List.flatMap_cons, record]
                  dsimp only
                  rw [hsize]
                  conv_lhs => rw [← hsplit]
                  simp only [List.append_assoc]
                · rw [List.foldlM_cons, create, hc]
                  exact hfold
              · intro h; cases h
    · rintro ⟨rs, hlen, hlegal, hinput, hfold⟩
      rcases hfirst rs hlegal hinput with ⟨rfl, hentry⟩ | ⟨e, rs', rfl, hentry⟩
      · rw [hentry]
        obtain rfl := Option.some.inj hfold
        rfl
      · rw [hentry]
        rw [List.foldlM_cons, create] at hfold
        dsimp only
        cases hc : fs.createNew (staging ++ components e.1) with
        | mk r fs₁ =>
          rw [hc] at hfold
          cases r with
          | error e => cases hfold
          | ok file =>
            simp only [List.take_left', List.drop_left', if_true]
            exact ih.mpr ⟨rs', by simpa using hlen, fun e he => hlegal e (by simp [he]), rfl, hfold⟩

/-! ### The files -/

theorem create_ok {e : String × Bytes} (h : create staging fs e = some fs') :
    fs.view (staging ++ components e.1) = none ∧
      ∀ q, fs'.view q = if q = staging ++ components e.1 then some (.inl e.2) else fs.view q := by
  rw [create] at h
  cases hc : fs.createNew (staging ++ components e.1) with
  | mk r fs₁ =>
    rw [hc] at h
    cases r with
    | error e => cases h
    | ok file =>
      obtain rfl := Option.some.inj h
      have hok : (fs.createNew (staging ++ components e.1)).1 = .ok file := by rw [hc]
      have hview := @Files.view_write _ _ _ e.2 hok
      rw [hc] at hview
      exact ⟨Files.createNew_view hok, hview⟩

/-- The records whose files could be made have different names, and each file is as its record says. -/
theorem foldlM_create {rs : List (String × Bytes)} (h : rs.foldlM (create staging) fs = some fs') :
    (rs.map fun e => components e.1).Nodup ∧ (∀ e ∈ rs, fs.view (staging ++ components e.1) = none) ∧
      (∀ e ∈ rs, fs'.view (staging ++ components e.1) = some (.inl e.2)) ∧
      ∀ q, (∀ e ∈ rs, q ≠ staging ++ components e.1) → fs'.view q = fs.view q := by
  induction rs generalizing fs with
  | nil =>
    obtain rfl := Option.some.inj h
    simp
  | cons e rs ih =>
    rw [List.foldlM_cons, Option.bind_eq_bind, Option.bind_eq_some_iff] at h
    obtain ⟨fs₁, he, h⟩ := h
    obtain ⟨hnone, hview⟩ := create_ok he
    obtain ⟨hnodup, hfresh, hrows, hrest⟩ := ih h
    -- a later record of the same name would have found the file
    have hne (e' : String × Bytes) (he' : e' ∈ rs) : components e'.1 ≠ components e.1 := fun heq => by
      have := hfresh e' he'
      rw [heq, hview, if_pos rfl] at this
      cases this
    refine ⟨?_, List.forall_mem_cons.mpr ⟨hnone, fun e' he' => ?_⟩, List.forall_mem_cons.mpr ⟨?_, hrows⟩, fun q hq => ?_⟩
    · rw [List.map_cons, List.nodup_cons]
      refine ⟨fun hmem => ?_, hnodup⟩
      obtain ⟨e', he', heq⟩ := List.mem_map.mp hmem
      exact hne e' he' heq
    · have := hfresh e' he'
      rwa [hview, if_neg fun heq => hne e' he' (List.append_cancel_left heq)] at this
    · rw [hrest _ fun e' he' heq => hne e' he' (List.append_cancel_left heq).symm, hview, if_pos rfl]
    · rw [hrest q fun e' he' => hq e' (by simp [he']), hview, if_neg (hq e (by simp))]

/-- Records of different names in directories that are there can all be made. -/
theorem foldlM_create_isSome {rs : List (String × Bytes)} (hnodup : (rs.map fun e => components e.1).Nodup)
    (hfresh : ∀ e ∈ rs, fs.view (staging ++ components e.1) = none)
    (hdir : ∀ e ∈ rs, ∃ dir x, components e.1 = dir ++ [x] ∧ fs.view (staging ++ dir) = some (.inr .dir)) :
    ∃ fs', rs.foldlM (create staging) fs = some fs' := by
  induction rs generalizing fs with
  | nil => exact ⟨fs, rfl⟩
  | cons e rs ih =>
    obtain ⟨dir, x, hparts, hview⟩ := hdir e (by simp)
    have hnone : fs.node (staging ++ dir ++ [x]) = none := by
      rw [List.append_assoc, ← hparts, ← Files.view_eq_none]
      exact hfresh e (by simp)
    have hnew := Files.createNew_eq (Files.view_eq_dir.mp hview) hnone
    rw [List.append_assoc, ← hparts] at hnew
    have hcreate : create staging fs e = some (Files.write fs.fresh e.2
        ((fs.setInode fs.fresh ⟨[], 0⟩).add (staging ++ components e.1) (.file fs.fresh))) := by rw [create, hnew]
    have hafter := (create_ok hcreate).2
    rw [List.map_cons, List.nodup_cons] at hnodup
    rw [List.foldlM_cons, hcreate]
    refine ih hnodup.2 (fun e' he' => ?_) (fun e' he' => ?_)
    · rw [hafter, if_neg fun heq => hnodup.1 (List.mem_map.mpr ⟨e', he', List.append_cancel_left heq⟩)]
      exact hfresh e' (by simp [he'])
    · obtain ⟨dir', x', hparts', hview'⟩ := hdir e' (by simp [he'])
      refine ⟨dir', x', hparts', ?_⟩
      rw [hafter, if_neg, hview']
      intro heq
      have := hfresh e (by simp)
      rw [← heq, hview'] at this
      cases this

/-- The directories that could be made. -/
theorem privateDirs_ok {dirs : List FilePath} (hne : ∀ d ∈ dirs, d ≠ [])
    (h : privateDirs dirs fs = (.ok (), fs')) (q : FilePath) :
    fs'.view q = if q ∈ dirs then some (.inr .dir) else fs.view q := by
  induction dirs generalizing fs with
  | nil =>
    obtain rfl := (Prod.mk.inj h).2
    simp
  | cons dir dirs ih =>
    rw [privateDirs] at h
    cases hc : fs.createDir dir with
    | mk r fs₁ =>
      rw [hc] at h
      cases r with
      | error e => cases h
      | ok u =>
        have hview := @Files.view_createDir fs dir (by rw [hc]) (hne dir (by simp)) q
        rw [hc] at hview
        rw [ih (fun d hd => hne d (by simp [hd])) h, hview]
        by_cases h1 : q ∈ dirs <;> by_cases h2 : q = dir <;> simp [h1, h2]

/-- Directories can be made one after the other when each is new and in one that is there. -/
theorem privateDirs_isOk {dirs : List FilePath} (hnodup : dirs.Nodup) (hfresh : ∀ d ∈ dirs, fs.view d = none)
    (hparent : ∀ l d r, dirs = l ++ d :: r → ∃ p x, d = p ++ [x] ∧ (p ∈ l ∨ fs.view p = some (.inr .dir))) :
    ∃ fs', privateDirs dirs fs = (.ok (), fs') := by
  induction dirs generalizing fs with
  | nil => exact ⟨fs, rfl⟩
  | cons dir dirs ih =>
    obtain ⟨p, x, rfl, hp⟩ := hparent [] dir dirs rfl
    have hdir := Files.view_eq_dir.mp (hp.resolve_left List.not_mem_nil)
    have hmade := Files.createDir_eq hdir (Files.view_eq_none.mp (hfresh (p ++ [x]) (by simp)))
    have hview := @Files.view_createDir fs (p ++ [x]) (by rw [hmade]) (by simp)
    rw [hmade] at hview
    rw [List.nodup_cons] at hnodup
    rw [privateDirs, hmade]
    refine @ih (fs.add (p ++ [x]) .dir) hnodup.2 (fun d hd => ?_) (fun l d r he => ?_)
    · rw [hview, if_neg (by rintro rfl; exact hnodup.1 hd)]
      exact hfresh d (by simp [hd])
    · obtain ⟨p', x', hd, hp'⟩ := hparent ((p ++ [x]) :: l) d r (by rw [he]; rfl)
      refine ⟨p', x', hd, ?_⟩
      rw [hview]
      split_ifs with heq
      · exact .inr rfl
      · exact hp'.imp_left fun hmem => (List.mem_cons.mp hmem).resolve_left heq

/-! ### Names -/

theorem components_entryName {parts : List String} (hne : parts ≠ []) (h : ∀ x ∈ parts, '/' ∉ x.toList) :
    components (entryName parts) = parts := by
  have hsplit : (entryName parts).toList.splitOn '/' = parts.map String.toList := by
    rw [entryName, String.toList_intercalate]
    exact List.splitOn_intercalate '/' (by simpa using h) (by simpa using hne)
  rw [components, hsplit, List.map_map]
  exact (List.map_congr_left fun x _ => String.ofList_toList).trans (List.map_id _)

/-- A slash is one of the bytes of a text. -/
theorem mem_utf8_of_slash {s : String} (h : '/' ∈ s.toList) : 47 ∈ utf8 s := by
  rw [← String.ofList_toList (s := s)]
  generalize s.toList = l at h
  induction l with
  | nil => cases h
  | cons c l ih =>
    rw [String.ofList_cons, utf8_append, List.mem_append]
    rcases List.mem_cons.mp h with rfl | h
    · exact .inl (by decide +kernel)
    · exact .inr (ih h)

theorem slash_of_plainName {id : String} (h : plainName id = true) : '/' ∉ id.toList := fun hmem => by
  have hall := (of_decide_eq_true h).2.2
  exact absurd (List.all_eq_true.mp hall 47 (mem_utf8_of_slash hmem)) (by decide)

theorem slash_of_isHash {hash : String} (h : isHash hash = true) : '/' ∉ hash.toList := fun hmem => by
  rw [isHash, Bool.and_eq_true] at h
  exact absurd (List.all_eq_true.mp h.2 47 (mem_utf8_of_slash hmem)) (by decide)

/-! ### The whole text -/

theorem readHeader_eq_ok {header : Header} : readHeader F input = .ok (header, rest) ↔ header.validate F = .ok () ∧
    ∃ json, json.length ≤ maxHeader ∧ F.fromSlice json = some header ∧
      input = magic ++ be 4 json.length ++ json ++ rest := by
  rw [readHeader, bind_eq_ok]
  constructor
  · rintro ⟨⟨start, r⟩, hstart, h⟩
    obtain ⟨-, rfl⟩ := readExact_eq_ok.mp hstart
    obtain ⟨hmagic, hafter⟩ := ensure_bind_eq_ok.mp h
    subst hmagic
    obtain ⟨⟨length, r'⟩, hlength, hbody⟩ := bind_eq_ok.mp hafter
    obtain ⟨hle, hbody⟩ := ensure_bind_eq_ok.mp hbody
    obtain ⟨⟨json, r''⟩, hjson, h⟩ := bind_eq_ok.mp hbody
    cases hheader : F.fromSlice json with
    | none => simp only [hheader, reduceCtorEq] at h
    | some header' =>
      simp only [hheader] at h
      obtain ⟨⟨⟩, hvalid, h⟩ := bind_eq_ok.mp h
      obtain ⟨rfl, rfl⟩ := Prod.mk.inj (pure_eq_ok.mp h)
      obtain ⟨-, rfl⟩ := number_eq_ok.mp hlength
      obtain ⟨rfl, rfl⟩ := readExact_eq_ok.mp hjson
      exact ⟨hvalid, json, hle, hheader, by simp⟩
  · rintro ⟨hvalid, json, hle, hheader, rfl⟩
    refine ⟨(magic, be 4 json.length ++ json ++ rest), readExact_eq_ok.mpr ⟨rfl, by simp⟩,
      ensure_bind_eq_ok.mpr ⟨rfl, bind_eq_ok.mpr ⟨(json.length, json ++ rest),
        number_eq_ok.mpr ⟨hle.trans_lt (by decide), by simp⟩, ensure_bind_eq_ok.mpr ⟨hle, bind_eq_ok.mpr ⟨(json, rest),
          readExact_eq_ok.mpr ⟨rfl, rfl⟩, ?_⟩⟩⟩⟩⟩
    simp only [hheader]
    exact bind_eq_ok.mpr ⟨(), hvalid, rfl⟩

theorem extract_eq_ok {header : Header} : extract F staging input fs = (.ok header, fs') ↔
    header.validate F = .ok () ∧ ∃ (json : Bytes) (rs : List (String × Bytes)) (fs₁ : Files),
      json.length ≤ maxHeader ∧ F.fromSlice json = some header ∧ (∀ e ∈ rs, Legal header.folders e.1 e.2.length) ∧
      input = magic ++ be 4 json.length ++ json ++ (rs.flatMap fun e => record e.1 e.2) ++ be 4 0 ∧
      privateDirs (directories staging header) fs = (.ok (), fs₁) ∧ rs.foldlM (create staging) fs₁ = some fs' := by
  rw [extract]
  constructor
  · cases hread : readHeader F input with
    | error e => intro h; cases h
    | ok r =>
      obtain ⟨header', input'⟩ := r
      obtain ⟨hvalid, json, hle, hheader, rfl⟩ := readHeader_eq_ok.mp hread
      dsimp only
      cases hdirs : privateDirs (directories staging header') fs with
      | mk r₁ fs₁ =>
        cases r₁ with
        | error e => intro h; cases h
        | ok u =>
          dsimp only
          cases hrecords : records staging header'.folders (input'.length + 1) input' fs₁ with
          | mk r₂ fs₂ =>
            cases r₂ with
            | error e => intro h; cases h
            | ok rest' =>
              intro h
              obtain ⟨hend, rfl⟩ := Prod.mk.inj h
              obtain ⟨rfl, hend⟩ := ensure_bind_eq_ok.mp hend
              obtain rfl := pure_eq_ok.mp hend
              obtain ⟨rs, -, hlegal, hinput, hfold⟩ := records_eq_ok.mp hrecords
              refine ⟨hvalid, json, rs, fs₁, hle, hheader, hlegal, ?_, hdirs, hfold⟩
              rw [hinput]
              simp
  · rintro ⟨hvalid, json, rs, fs₁, hle, hheader, hlegal, rfl, hdirs, hfold⟩
    have hread : readHeader F (magic ++ be 4 json.length ++ json ++ (rs.flatMap fun e => record e.1 e.2) ++ be 4 0) =
        .ok (header, (rs.flatMap fun e => record e.1 e.2) ++ be 4 0) :=
      readHeader_eq_ok.mpr ⟨hvalid, json, hle, hheader, by simp⟩
    -- every record takes four bytes at least
    have hlen : rs.length < ((rs.flatMap fun e => record e.1 e.2) ++ be 4 0).length + 1 := by
      have : rs.length ≤ (rs.flatMap fun e => record e.1 e.2).length := by
        rw [List.length_flatMap]
        refine (List.length_le_sum_of_one_le _ fun n hn => ?_).trans_eq' (by simp)
        obtain ⟨e, -, rfl⟩ := List.mem_map.mp hn
        simp [record]
        omega
      rw [List.length_append]
      omega
    rw [hread]
    dsimp only
    rw [hdirs]
    dsimp only
    rw [records_eq_ok.mpr ⟨rs, hlen, hlegal, (List.append_nil _).symm, hfold⟩]
    rfl

/-! ### What is backed up -/

/-- The directory that a backup is made from: for each folder the manifest, the copy of the index and the objects. -/
structure Staged (folders : Std.ExtTreeSet String) (source : FilePath) (fs : Files) : Prop where
  /-- The folders are in a directory. -/
  top : fs.node (source ++ ["folders"]) = some .dir
  /-- The manifest is a file, and bounded. -/
  manifest : ∀ id ∈ folders, ∃ i, fs.node (source ++ ["folders", id, "manifest.json"]) = some (.file i) ∧
    (fs.inode i).bytes.length ≤ 128 * 1024
  /-- The copy of the index is a file. -/
  index : ∀ id ∈ folders, ∃ i, fs.node (source ++ ["folders", id, "index.sqlite"]) = some (.file i)
  /-- The objects are in a directory. -/
  objects : ∀ id ∈ folders, fs.node (source ++ ["folders", id, "objects"]) = some .dir
  /-- They are files named by hashes. -/
  object : ∀ id ∈ folders, ∀ hash, fs.node (source ++ ["folders", id, "objects", hash]) ≠ none →
    isHash hash = true ∧ ∃ i, fs.node (source ++ ["folders", id, "objects", hash]) = some (.file i)
  /-- The sizes of files are numbers of 64 bits. -/
  sizes : ∀ i, (fs.inode i).bytes.length < 2 ^ 64

/-- What an archive of folders carries: the paths below its directory of folders. -/
def Carried (folders : Std.ExtTreeSet String) : FilePath → Prop
  | [] => True
  | [id] => id ∈ folders
  | [id, name] => id ∈ folders ∧ (name = "manifest.json" ∨ name = "index.sqlite" ∨ name = "objects")
  | [id, name, _] => id ∈ folders ∧ name = "objects"
  | _ => False

/-- The files of a folder, by the parts of their names. -/
def heldOf (source : FilePath) (fs : Files) (id : String) : List FilePath :=
  ["folders", id, "manifest.json"] :: ["folders", id, "index.sqlite"] ::
    (fs.children (source ++ ["folders", id, "objects"])).map fun hash => ["folders", id, "objects", hash]

/-- The files that are backed up. -/
def held (folders : Std.ExtTreeSet String) (source : FilePath) (fs : Files) : List FilePath :=
  folders.toList.flatMap (heldOf source fs)

/-- The bytes of a file. -/
def bytesAt (fs : Files) (p : FilePath) : Bytes :=
  match fs.view p with
  | some (.inl bytes) => bytes
  | some (.inr _) | none => []

/-- Its record. -/
def heldRecord (source : FilePath) (fs : Files) (p : FilePath) : String × Bytes :=
  (entryName p, bytesAt fs (source ++ p))

variable {source target : FilePath} {p q : FilePath}

theorem mem_held : p ∈ held folders source fs ↔ ∃ id ∈ folders, p = ["folders", id, "manifest.json"] ∨
    p = ["folders", id, "index.sqlite"] ∨ ∃ hash, fs.node (source ++ ["folders", id, "objects", hash]) ≠ none ∧
      p = ["folders", id, "objects", hash] := by
  have hchild (id hash : String) : source ++ ["folders", id, "objects"] ++ [hash] =
      source ++ ["folders", id, "objects", hash] := by simp
  simp only [held, heldOf, List.mem_flatMap, List.mem_cons, List.mem_map, Std.ExtTreeSet.mem_toList,
    Files.mem_children, hchild, eq_comm]

/-- Each of them is a file, of an allowed name. -/
theorem Staged.held (h : Staged folders source fs) (hp : p ∈ held folders source fs) : Allowed folders p ∧
    (∃ i, fs.node (source ++ p) = some (.file i)) ∧ (p[2]? = some "manifest.json" →
      (bytesAt fs (source ++ p)).length ≤ 128 * 1024) := by
  obtain ⟨id, hid, rfl | rfl | ⟨hash, hhash, rfl⟩⟩ := mem_held.mp hp
  · obtain ⟨i, hi, hsize⟩ := h.manifest id hid
    exact ⟨.manifest hid, ⟨i, hi⟩, fun _ => by rw [bytesAt, Files.view_file hi]; exact hsize⟩
  · exact ⟨.index hid, h.index id hid, fun he => by simp at he⟩
  · obtain ⟨hh, hi⟩ := h.object id hid hash hhash
    exact ⟨.object hid hh, hi, fun he => by simp at he⟩

theorem nodup_held : (held folders source fs).Nodup := by
  rw [held, List.nodup_flatMap]
  refine ⟨fun id _ => ?_, ?_⟩
  · have hmap : ((fs.children (source ++ ["folders", id, "objects"])).map
        fun hash => ["folders", id, "objects", hash]).Nodup :=
      (List.nodup_dedup _).map fun a b h => by simpa using h
    simp [heldOf, hmap]
  · refine Std.ExtTreeSet.distinct_toList.imp fun {a b} hab p ha hb => hab ?_
    have first {id : String} (hp : p ∈ heldOf source fs id) : p[1]? = some id := by
      simp only [heldOf, List.mem_cons, List.mem_map] at hp
      rcases hp with rfl | rfl | ⟨_, _, rfl⟩ <;> rfl
    rw [Option.some.inj ((first ha).symm.trans (first hb))]
    exact Std.ReflCmp.compare_self

/-! ### What is written -/

theorem mapM_eq_ok {α β : Type} {l : List α} {f : α → Result β} {g : α → β} (h : ∀ a ∈ l, f a = .ok (g a)) :
    l.mapM f = .ok (l.map g) := by
  induction l with
  | nil => rfl
  | cons a l ih =>
    rw [List.mapM_cons, h a (by simp), ih fun b hb => h b (by simp [hb])]
    rfl

theorem writeRecord_eq {i : ℕ} (h : fs.node (source ++ p) = some (.file i)) :
    writeRecord fs (entryName p) (source ++ p) = .ok (record (entryName p) (bytesAt fs (source ++ p))) := by
  rw [writeRecord, Files.lookup_eq_ok.mpr h, bytesAt, Files.view_file h]
  rfl

/-- The names of a directory are listed. -/
theorem entries_eq (h : fs.node p = some .dir) : ∃ l, (fs.entries p).1 = .ok l ∧ l.map (·.1) = fs.children p := by
  refine ⟨(fs.children p).filterMap fun x => (fs.node (p ++ [x])).map (x, ·), ?_, ?_⟩
  · rw [Files.entries, Files.lookup_eq_ok.mpr h]
    rfl
  · rw [List.map_filterMap]
    refine (List.filterMap_congr fun x hx => ?_).trans List.filterMap_some
    obtain ⟨n, hn⟩ := Option.ne_none_iff_exists'.mp (Files.mem_children.mp hx)
    rw [hn]
    rfl

theorem encodeFolder_eq (h : Staged folders source fs) {id : String} (hid : id ∈ folders) :
    encodeFolder source fs id = .ok (((heldOf source fs id).map (heldRecord source fs)).flatMap fun e =>
      record e.1 e.2) := by
  obtain ⟨i, hi, -⟩ := h.manifest id hid
  obtain ⟨j, hj⟩ := h.index id hid
  obtain ⟨l, hl, hnames⟩ := entries_eq (h.objects id hid)
  have hfiles : ["manifest.json", "index.sqlite"].mapM (fun name =>
      writeRecord fs (entryName ["folders", id, name]) (source ++ ["folders", id, name])) =
        .ok (["manifest.json", "index.sqlite"].map fun name =>
          record (entryName ["folders", id, name]) (bytesAt fs (source ++ ["folders", id, name]))) := by
    refine mapM_eq_ok fun name hname => ?_
    obtain rfl | rfl : name = "manifest.json" ∨ name = "index.sqlite" := by simpa using hname
    · exact writeRecord_eq hi
    · exact writeRecord_eq hj
  have hobjects : l.mapM (fun e => do
      validPeer e.1
      writeRecord fs (entryName ["folders", id, "objects", e.1]) (source ++ ["folders", id, "objects", e.1])) =
        .ok (l.map fun e => record (entryName ["folders", id, "objects", e.1])
          (bytesAt fs (source ++ ["folders", id, "objects", e.1]))) := by
    refine mapM_eq_ok fun e he => ?_
    have hmem : e.1 ∈ fs.children (source ++ ["folders", id, "objects"]) := by
      rw [← hnames]
      exact List.mem_map.mpr ⟨e, he, rfl⟩
    rw [Files.mem_children, List.append_assoc] at hmem
    obtain ⟨hhash, k, hk⟩ := h.object id hid e.1 hmem
    rw [validPeer, ensure, if_pos hhash]
    exact writeRecord_eq hk
  have hlist : ((fs.entries (source ++ ["folders", id, "objects"])).1.mapError Error.io) = .ok l := by
    rw [hl]
    rfl
  refine bind_eq_ok.mpr ⟨_, hfiles, bind_eq_ok.mpr ⟨_, hlist, bind_eq_ok.mpr ⟨_, hobjects, pure_eq_ok.mpr ?_⟩⟩⟩
  rw [heldOf, ← hnames]
  simp [heldRecord, List.flatMap_def, Function.comp_def]

/-- The text of the archive of a directory. -/
theorem encode_eq_ok {header : Header} {text : Bytes} (h : Staged header.folders source fs) :
    encode F header source fs = .ok text ↔ (F.toVec header).length ≤ maxHeader ∧
      text = magic ++ be 4 (F.toVec header).length ++ F.toVec header ++
        (((held header.folders source fs).map (heldRecord source fs)).flatMap fun e => record e.1 e.2) ++ be 4 0 := by
  have hfolders : header.folders.toList.mapM (encodeFolder source fs) = .ok (header.folders.toList.map fun id =>
      ((heldOf source fs id).map (heldRecord source fs)).flatMap fun e => record e.1 e.2) :=
    mapM_eq_ok fun id hid => encodeFolder_eq h (Std.ExtTreeSet.mem_toList.mp hid)
  have hflat : (header.folders.toList.map fun id =>
      ((heldOf source fs id).map (heldRecord source fs)).flatMap fun e => record e.1 e.2).flatten =
        ((held header.folders source fs).map (heldRecord source fs)).flatMap fun e => record e.1 e.2 := by
    rw [held, List.map_flatMap, List.flatMap_assoc, List.flatMap_def]
  rw [encode, ensure_bind_eq_ok, hfolders]
  refine and_congr_right fun _ => ?_
  rw [← hflat]
  exact ⟨fun h => (pure_eq_ok.mp h).symm, fun h => pure_eq_ok.mpr h.symm⟩

/-! ### Back and forth -/

/-- An allowed name has no slashes in its parts, and is not long. -/
theorem Allowed.name (hid : ∀ id ∈ folders, plainName id = true) (h : Allowed folders p) :
    components (entryName p) = p ∧ 0 < (utf8 (entryName p)).length ∧ (utf8 (entryName p)).length ≤ 256 := by
  have hsize : "folders".utf8ByteSize = 7 ∧ "manifest.json".utf8ByteSize = 13 ∧ "index.sqlite".utf8ByteSize = 12 ∧
      "objects".utf8ByteSize = 7 ∧ "/".utf8ByteSize = 1 := by decide +kernel
  have hplain {id : String} (h : id ∈ folders) : id.utf8ByteSize ≤ 64 := (of_decide_eq_true (hid id h)).2.1
  cases h with
  | manifest h | index h =>
    have hlen := hplain h
    refine ⟨components_entryName (by simp) (by simp [slash_of_plainName (hid _ h)]), ?_⟩
    simp only [length_utf8, entryName, String.intercalate_cons_cons, String.intercalate_singleton,
      String.utf8ByteSize_append]
    omega
  | object h hhash =>
    have hlen := hplain h
    have hsixty : _ = 64 := of_decide_eq_true (Bool.and_eq_true_iff.mp hhash).1
    refine ⟨components_entryName (by simp) (by
      simp [slash_of_plainName (hid _ h), slash_of_isHash hhash]), ?_⟩
    simp only [length_utf8, entryName, String.intercalate_cons_cons, String.intercalate_singleton,
      String.utf8ByteSize_append]
    omega

theorem mem_directories {header : Header} : p ∈ directories target header ↔ p = target ++ ["folders"] ∨
    ∃ id ∈ header.folders, p = target ++ ["folders", id] ∨ p = target ++ ["folders", id, "objects"] := by
  simp only [directories, List.mem_cons, List.mem_flatMap, Std.ExtTreeSet.mem_toList, List.not_mem_nil, or_false]

theorem plain_of_validate {header : Header} (h : header.validate F = .ok ()) :
    ∀ id ∈ header.folders, plainName id = true := by
  obtain ⟨-, h⟩ := ensure_bind_eq_ok.mp h
  obtain ⟨-, h⟩ := ensure_bind_eq_ok.mp h
  obtain ⟨-, h⟩ := ensure_bind_eq_ok.mp h
  obtain ⟨-, -, h⟩ := bind_eq_ok.mp h
  obtain ⟨⟨⟩, hfolders, -⟩ := bind_eq_ok.mp h
  exact fun id hid => ensure_eq_ok.mp (forM_eq_ok.mp hfolders id (Std.ExtTreeSet.mem_toList.mpr hid))

/-- The directory of a folder comes before that of its objects. -/
theorem mem_of_flatMap {ids : List String} {l r : List FilePath} {id : String}
    (h : (ids.flatMap fun id => [target ++ ["folders", id], target ++ ["folders", id, "objects"]]) =
      l ++ (target ++ ["folders", id, "objects"]) :: r) : target ++ ["folders", id] ∈ l := by
  induction ids generalizing l with
  | nil => simp at h
  | cons i ids ih =>
    match l with
    | [] => simp at h
    | [a] =>
      simp only [List.flatMap_cons, List.cons_append, List.nil_append, List.cons.injEq, List.append_cancel_left_eq,
        true_and, and_true] at h
      obtain ⟨rfl, rfl, -⟩ := h
      simp
    | a :: b :: l =>
      simp only [List.flatMap_cons, List.cons_append, List.nil_append, List.cons.injEq] at h
      have := ih h.2.2
      simp [this]

/-- The directories can be made in an empty directory. -/
theorem privateDirs_directories {header : Header} (htarget : fs.node target = some .dir)
    (hempty : fs.node (target ++ ["folders"]) = none) :
    ∃ fs', privateDirs (directories target header) fs = (.ok (), fs') := by
  have hnone {p : FilePath} (hp : target ++ ["folders"] <+: p) : fs.node p = none := by
    by_contra hne
    by_cases he : target ++ ["folders"] = p
    · exact hne (he ▸ hempty)
    · rw [fs.node_of_prefix hne hp he] at hempty
      cases hempty
  refine privateDirs_isOk ?_ (fun d hd => Files.view_eq_none.mpr (hnone ?_)) fun l d r he => ?_
  · rw [directories, List.nodup_cons, List.nodup_flatMap]
    refine ⟨fun h => ?_, fun id _ => by simp, ?_⟩
    · simp at h
    · refine Std.ExtTreeSet.distinct_toList.imp fun {a b} hab p ha hb => hab ?_
      have hparts {id : String} (hp : p ∈ [target ++ ["folders", id], target ++ ["folders", id, "objects"]]) :
          (p.drop target.length)[1]? = some id := by
        rcases List.mem_pair.mp hp with rfl | rfl <;> simp
      rw [Option.some.inj ((hparts ha).symm.trans (hparts hb))]
      exact Std.ReflCmp.compare_self
  · rcases mem_directories.mp hd with rfl | ⟨id, -, rfl | rfl⟩
    · exact List.prefix_rfl
    · exact ⟨[id], by simp⟩
    · exact ⟨[id, "objects"], by simp⟩
  · cases l with
    | nil => exact ⟨target, "folders", (List.cons.inj he).1.symm, .inr (Files.view_eq_dir.mpr htarget)⟩
    | cons a l =>
      obtain ⟨rfl, hlist⟩ := List.cons.inj he
      replace hlist : (header.folders.toList.flatMap fun id =>
          [target ++ ["folders", id], target ++ ["folders", id, "objects"]]) = l ++ d :: r := hlist
      have hd : d ∈ header.folders.toList.flatMap fun id =>
          [target ++ ["folders", id], target ++ ["folders", id, "objects"]] := by
        rw [hlist]
        simp
      obtain ⟨id, -, hd⟩ := List.mem_flatMap.mp hd
      rcases List.mem_pair.mp hd with rfl | rfl
      · exact ⟨target ++ ["folders"], id, by simp, .inl (by simp)⟩
      · exact ⟨target ++ ["folders", id], "objects", by simp, .inl (List.mem_cons_of_mem _ (mem_of_flatMap hlist))⟩

/-! ### What was framed comes back -/

section placed

variable {header : Header} {fs₀ fs₁ : Files}

theorem Staged.components_entryName (h : Staged folders source fs) (hplain : ∀ id ∈ folders, plainName id = true)
    (hp : p ∈ Archive.held folders source fs) : components (entryName p) = p :=
  ((h.held hp).1.name hplain).1

/-- Each record is that of a file. -/
theorem Staged.mem_records (h : Staged folders source fs) (hplain : ∀ id ∈ folders, plainName id = true) {e : String × Bytes}
    (he : e ∈ (Archive.held folders source fs).map (heldRecord source fs)) :
    ∃ p ∈ Archive.held folders source fs, components e.1 = p ∧ e = heldRecord source fs p := by
  obtain ⟨p, hp, rfl⟩ := List.mem_map.mp he
  exact ⟨p, hp, h.components_entryName hplain hp, rfl⟩

/-- The bytes of a file, which are not too many. -/
theorem Staged.view_held (h : Staged folders source fs) (hp : p ∈ Archive.held folders source fs) :
    fs.view (source ++ p) = some (.inl (bytesAt fs (source ++ p))) ∧ (bytesAt fs (source ++ p)).length < 2 ^ 64 := by
  obtain ⟨-, ⟨i, hi⟩, -⟩ := h.held hp
  rw [bytesAt, Files.view_file hi]
  exact ⟨rfl, h.sizes i⟩

/-- The records are accepted. -/
theorem Staged.legal (h : Staged folders source fs) (hplain : ∀ id ∈ folders, plainName id = true) :
    ∀ e ∈ (Archive.held folders source fs).map (heldRecord source fs), Legal folders e.1 e.2.length := by
  intro e he
  obtain ⟨p, hp, hc, rfl⟩ := h.mem_records hplain he
  obtain ⟨hallowed, -, hmanifest⟩ := h.held hp
  exact ⟨(hallowed.name hplain).2, by rwa [hc], (h.view_held hp).2, by rwa [hc]⟩

/-- Below a directory that is not there, nothing is. -/
theorem view_below (hempty : fs₀.node (target ++ ["folders"]) = none) (q : FilePath) :
    fs₀.view (target ++ "folders" :: q) = none := by
  rw [Files.view_eq_none]
  by_contra hne
  by_cases he : target ++ ["folders"] = target ++ "folders" :: q
  · exact hne (he ▸ hempty)
  · rw [fs₀.node_of_prefix hne (by simp) he] at hempty
    cases hempty

/-- Among the empty directories, there is a place for each file. -/
theorem Staged.places (h : Staged header.folders source fs) (hplain : ∀ id ∈ header.folders, plainName id = true)
    (hempty : fs₀.node (target ++ ["folders"]) = none)
    (hview : ∀ q, fs₁.view q = if q ∈ directories target header then some (.inr .dir) else fs₀.view q) :
    ∀ e ∈ (Archive.held header.folders source fs).map (heldRecord source fs), fs₁.view (target ++ components e.1) = none ∧
      ∃ dir x, components e.1 = dir ++ [x] ∧ fs₁.view (target ++ dir) = some (.inr .dir) := by
  intro e he
  obtain ⟨p, hp, hc, rfl⟩ := h.mem_records hplain he
  rw [hc]
  constructor
  · rw [hview, if_neg]
    · cases (h.held hp).1 <;> exact view_below hempty _
    · rw [mem_directories]
      cases (h.held hp).1 <;> simp
  · cases (h.held hp).1 with
    | manifest hid | index hid =>
      refine ⟨["folders", _], _, rfl, ?_⟩
      rw [hview, if_pos (mem_directories.mpr (.inr ⟨_, hid, .inl rfl⟩))]
    | object hid _ =>
      refine ⟨["folders", _, "objects"], _, rfl, ?_⟩
      rw [hview, if_pos (mem_directories.mpr (.inr ⟨_, hid, .inr rfl⟩))]

/-- The directory is made of the files, the directories around them, and what was there before. -/
structure Placed (source target : FilePath) (header : Header) (fs fs₀ fs' : Files) : Prop where
  /-- The files. -/
  files : ∀ p ∈ held header.folders source fs, fs'.view (target ++ p) = fs.view (source ++ p)
  /-- The rest. -/
  rest : ∀ q, (∀ p ∈ held header.folders source fs, q ≠ target ++ p) →
    fs'.view q = if q ∈ directories target header then some (.inr .dir) else fs₀.view q

/-- The files are put into their places. -/
theorem Staged.placed (h : Staged header.folders source fs) (hplain : ∀ id ∈ header.folders, plainName id = true)
    (hempty : fs₀.node (target ++ ["folders"]) = none)
    (hview : ∀ q, fs₁.view q = if q ∈ directories target header then some (.inr .dir) else fs₀.view q) :
    ∃ fs', ((Archive.held header.folders source fs).map (heldRecord source fs)).foldlM (create target) fs₁ = some fs' ∧
      Placed source target header fs fs₀ fs' := by
  have hplaces := h.places hplain hempty hview
  have hmap : (((Archive.held header.folders source fs).map (heldRecord source fs)).map fun e => components e.1) =
      Archive.held header.folders source fs := by
    rw [List.map_map]
    exact (List.map_congr_left fun p hp => h.components_entryName hplain hp).trans (List.map_id _)
  obtain ⟨fs', hfold⟩ := @foldlM_create_isSome _ target _ (by rw [hmap]; exact nodup_held) (fun e he => (hplaces e he).1)
    fun e he => (hplaces e he).2
  obtain ⟨-, -, hrows, hrest⟩ := foldlM_create hfold
  refine ⟨fs', hfold, fun p hp => ?_, fun q hq => ?_⟩
  · have hrow := hrows _ (List.mem_map_of_mem (f := heldRecord source fs) hp)
    rwa [heldRecord, h.components_entryName hplain hp, ← (h.view_held hp).1] at hrow
  · rw [hrest q fun e he => ?_, hview]
    obtain ⟨p, hp, hc, -⟩ := h.mem_records hplain he
    rw [hc]
    exact hq p hp

/-- What is carried is as it was at the source. -/
theorem Placed.carried (h : Placed source target header fs fs₀ fs') (hstaged : Staged header.folders source fs)
    (hempty : fs₀.node (target ++ ["folders"]) = none) (hq : Carried header.folders q) :
    fs'.view (target ++ "folders" :: q) = fs.view (source ++ "folders" :: q) := by
  by_cases hheld : "folders" :: q ∈ held header.folders source fs
  · exact h.files _ hheld
  rw [h.rest _ fun p hp he => hheld (by rwa [List.append_cancel_left he]), view_below hempty]
  -- a directory, or the place of an object that is not there
  match q, hq with
  | [], _ =>
    rw [if_pos (mem_directories.mpr (.inl rfl))]
    exact (Files.view_eq_dir.mpr hstaged.top).symm
  | [id], hid =>
    rw [if_pos (mem_directories.mpr (.inr ⟨id, hid, .inl rfl⟩))]
    have hobjects := hstaged.objects id hid
    refine (Files.view_eq_dir.mpr (fs.parent (source ++ ["folders", id]) "objects" ?_)).symm
    simp [hobjects]
  | [id, name], ⟨hid, hname⟩ =>
    rcases hname with rfl | rfl | rfl
    · exact absurd (mem_held.mpr ⟨id, hid, .inl rfl⟩) hheld
    · exact absurd (mem_held.mpr ⟨id, hid, .inr (.inl rfl)⟩) hheld
    · rw [if_pos (mem_directories.mpr (.inr ⟨id, hid, .inr rfl⟩))]
      exact (Files.view_eq_dir.mpr (hstaged.objects id hid)).symm
  | [id, name, hash], ⟨hid, hname⟩ =>
    subst hname
    have habsent : fs.node (source ++ ["folders", id, "objects", hash]) = none := by
      by_contra hne
      exact hheld (mem_held.mpr ⟨id, hid, .inr (.inr ⟨hash, hne, rfl⟩)⟩)
    rw [if_neg, Files.view_eq_none.mpr habsent]
    rw [mem_directories]
    simp

/-- Nothing else is below the directory of folders. -/
theorem Placed.uncarried (h : Placed source target header fs fs₀ fs') (hempty : fs₀.node (target ++ ["folders"]) = none)
    (hq : ¬ Carried header.folders q) : fs'.view (target ++ "folders" :: q) = none := by
  have hnot : "folders" :: q ∉ held header.folders source fs := fun hmem => by
    obtain ⟨id, hid, h | h | ⟨hash, -, h⟩⟩ := mem_held.mp hmem <;> obtain rfl := (List.cons.inj h).2 <;>
      exact hq (by simp [Carried, hid])
  rw [h.rest _ fun p hp he => hnot (by rwa [List.append_cancel_left he]), if_neg, view_below hempty]
  rw [mem_directories]
  rintro (h | ⟨id, hid, h | h⟩) <;> obtain rfl := (List.cons.inj (List.append_cancel_left h)).2 <;>
    exact hq (by simp [Carried, *])

/-- What is elsewhere stays. -/
theorem Placed.elsewhere (h : Placed source target header fs fs₀ fs') (hstaged : Staged header.folders source fs)
    (hp : ¬ target ++ ["folders"] <+: p) : fs'.view p = fs₀.view p := by
  rw [h.rest, if_neg]
  · rw [mem_directories]
    rintro (rfl | ⟨id, hid, rfl | rfl⟩) <;> exact hp (by simp)
  · rintro p' hp' rfl
    cases (hstaged.held hp').1 <;> exact hp (by simp)

end placed

/-- What was framed comes back. -/
theorem extract_encode {header : Header} (hcodec : F.fromSlice (F.toVec header) = some header)
    (hvalid : header.validate F = .ok ()) (hstaged : Staged header.folders source fs) {text : Bytes}
    (hencode : encode F header source fs = .ok text) {fs₀ : Files} (htarget : fs₀.node target = some .dir)
    (hempty : fs₀.node (target ++ ["folders"]) = none) :
    ∃ fs', extract F target text fs₀ = (.ok header, fs') ∧
      (∀ q, Carried header.folders q → fs'.view (target ++ "folders" :: q) = fs.view (source ++ "folders" :: q)) ∧
      (∀ q, ¬ Carried header.folders q → fs'.view (target ++ "folders" :: q) = none) ∧
      ∀ p, ¬ target ++ ["folders"] <+: p → fs'.view p = fs₀.view p := by
  obtain ⟨hlen, rfl⟩ := (encode_eq_ok hstaged).mp hencode
  have hplain := plain_of_validate hvalid
  obtain ⟨fs₁, hdirs⟩ := @privateDirs_directories _ _ header htarget hempty
  have hview := privateDirs_ok (fun d hd => by
    rcases mem_directories.mp hd with rfl | ⟨id, -, rfl | rfl⟩ <;> simp) hdirs
  obtain ⟨fs', hfold, hplaced⟩ := hstaged.placed hplain hempty hview
  refine ⟨fs', extract_eq_ok.mpr ⟨hvalid, F.toVec header, _, fs₁, hlen, hcodec, hstaged.legal hplain, rfl, hdirs, hfold⟩,
    fun q hq => ?_, fun q hq => ?_, fun p hp => ?_⟩
  · exact hplaced.carried hstaged hempty hq
  · exact hplaced.uncarried hempty hq
  · exact hplaced.elsewhere hstaged hp

/-- What is accepted is well formed, and has made nothing outside the directory of folders. -/
theorem extract_sound {header : Header} (h : extract F staging input fs = (.ok header, fs')) :
    header.validate F = .ok () ∧ ∃ (json : Bytes) (rs : List (String × Bytes)),
      json.length ≤ maxHeader ∧ F.fromSlice json = some header ∧
      input = magic ++ be 4 json.length ++ json ++ (rs.flatMap fun e => record e.1 e.2) ++ be 4 0 ∧
      (∀ e ∈ rs, Allowed header.folders (components e.1)) ∧ (rs.map (·.1)).Nodup ∧
      (∀ e ∈ rs, fs'.view (staging ++ components e.1) = some (.inl e.2)) ∧
      ∀ p, ¬ staging ++ ["folders"] <+: p → fs'.view p = fs.view p := by
  obtain ⟨hvalid, json, rs, fs₁, hlen, hheader, hlegal, hinput, hdirs, hfold⟩ := extract_eq_ok.mp h
  obtain ⟨hnodup, -, hrows, hrest⟩ := foldlM_create hfold
  refine ⟨hvalid, json, rs, hlen, hheader, hinput, fun e he => (hlegal e he).allowed, ?_, hrows, fun p hp => ?_⟩
  · refine List.Nodup.of_map components ?_
    rwa [List.map_map]
  · rw [hrest p fun e he hpe => ?_, privateDirs_ok ?_ hdirs, if_neg]
    · rw [mem_directories]
      rintro (rfl | ⟨id, -, rfl | rfl⟩) <;> exact hp (by simp)
    · intro d hd
      rcases mem_directories.mp hd with rfl | ⟨id, -, rfl | rfl⟩ <;> simp
    · have hallowed := (hlegal e he).allowed
      rw [hpe] at hp
      generalize components e.1 = parts at hallowed hp
      cases hallowed <;> exact hp (by simp)

/-- **The codec of device archives.** For every header that passes its check and whose JSON text is read back as it is,
and every directory with the files of its folders, the archive can be written just when the header is not too large,
and taking it apart in an empty directory gives an equal header and exactly those files. And every text that is
accepted is the magic, a header, records of allowed names, each once, and the end; its files are as it says, and
nothing outside the directory of folders has changed. -/
theorem archive_codec (F : Formats) :
    (∀ (header : Header) (source : FilePath) (fs : Files), F.fromSlice (F.toVec header) = some header →
      header.validate F = .ok () → Staged header.folders source fs →
      ((∃ text, encode F header source fs = .ok text) ↔ (F.toVec header).length ≤ maxHeader) ∧
      ∀ (text : Bytes) (target : FilePath) (fs₀ : Files), encode F header source fs = .ok text →
        fs₀.node target = some .dir → fs₀.node (target ++ ["folders"]) = none →
        ∃ fs', extract F target text fs₀ = (.ok header, fs') ∧
          (∀ q, Carried header.folders q → fs'.view (target ++ "folders" :: q) = fs.view (source ++ "folders" :: q)) ∧
          (∀ q, ¬ Carried header.folders q → fs'.view (target ++ "folders" :: q) = none) ∧
          ∀ p, ¬ target ++ ["folders"] <+: p → fs'.view p = fs₀.view p) ∧
    ∀ (staging : FilePath) (input : Bytes) (fs fs' : Files) (header : Header),
      extract F staging input fs = (.ok header, fs') →
      header.validate F = .ok () ∧ ∃ (json : Bytes) (rs : List (String × Bytes)),
        json.length ≤ maxHeader ∧ F.fromSlice json = some header ∧
        input = magic ++ be 4 json.length ++ json ++ (rs.flatMap fun e => record e.1 e.2) ++ be 4 0 ∧
        (∀ e ∈ rs, Allowed header.folders (components e.1)) ∧ (rs.map (·.1)).Nodup ∧
        (∀ e ∈ rs, fs'.view (staging ++ components e.1) = some (.inl e.2)) ∧
        ∀ p, ¬ staging ++ ["folders"] <+: p → fs'.view p = fs.view p := by
  refine ⟨fun header source fs hcodec hvalid hstaged => ⟨?_, fun text target fs₀ hencode htarget hempty =>
    extract_encode hcodec hvalid hstaged hencode htarget hempty⟩, fun staging input fs fs' header h => extract_sound h⟩
  simp only [encode_eq_ok hstaged, exists_and_left, exists_eq, and_true]

/-! ### A small archive -/

/-- A header with one folder. -/
def sampleHeader : Header := ⟨1, [48], [49], ∅, ∅, (∅ : Std.ExtTreeSet String).insert "a"⟩

/-- Its JSON text. -/
def sampleText : Bytes := utf8
  "\x7b\"format\":1,\"certificate\":[48],\"private_key\":[49],\"peers\":\x7b\x7d,\"jobs\":\x7b\x7d,\"folders\":[\"a\"]\x7d"

/-- The codec, as far as that header is concerned. -/
def sampleFormats : Formats where
  fingerprint bytes := Platform.padded.blake3 bytes
  singleCert _ _ := .ok ()
  addRoot _ := .ok ()
  toVec header := if header = sampleHeader then sampleText else []
  fromSlice bytes := if bytes = sampleText then some sampleHeader else none

/-- A directory with the files of that folder. -/
def sampleFiles : Files :=
  ((((((Files.empty.setInode 0 ⟨utf8 "manifest", 0⟩).setInode 1 ⟨utf8 "index", 0⟩).add ["folders"] .dir).add
    ["folders", "a"] .dir).add ["folders", "a", "objects"] .dir).add ["folders", "a", "manifest.json"] (.file 0)).add
    ["folders", "a", "index.sqlite"] (.file 1)

/-- The directory that the archive is taken apart in. -/
def sampleTarget : Files := Files.empty.add ["backup"] .dir

theorem staged_sampleFiles : Staged sampleHeader.folders [] sampleFiles := by
  have hid {id : String} (h : id ∈ sampleHeader.folders) : id = "a" := by
    simp only [sampleHeader, Std.ExtTreeSet.mem_insert, Std.LawfulEqCmp.compare_eq_iff_eq] at h
    exact h.elim Eq.symm fun h => absurd h Std.ExtTreeSet.not_mem_empty
  have hnames : ∀ p ∈ sampleFiles.names, p.length ≤ 3 := by decide +kernel
  have hmanifest : sampleFiles.node ["folders", "a", "manifest.json"] = some (.file 0) ∧
      (sampleFiles.inode 0).bytes.length ≤ 128 * 1024 := by decide +kernel
  have hindex : sampleFiles.node ["folders", "a", "index.sqlite"] = some (.file 1) := by decide +kernel
  have hobjects : sampleFiles.node ["folders", "a", "objects"] = some .dir := by decide +kernel
  have htop : sampleFiles.node ["folders"] = some .dir := by decide +kernel
  refine ⟨htop, fun id h => ?_, fun id h => ?_, fun id h => ?_, fun id h hash hne => ?_, fun i => ?_⟩
  · exact ⟨0, by rw [hid h]; exact hmanifest⟩
  · exact ⟨1, by rw [hid h]; exact hindex⟩
  · rw [hid h]
    exact hobjects
  · have := hnames _ (sampleFiles.mem_names _ hne)
    simp at this
  · have hsize : (utf8 "manifest").length < 2 ^ 64 ∧ (utf8 "index").length < 2 ^ 64 := by decide +kernel
    simp only [sampleFiles, Files.inode_add, Files.inode_setInode, Function.update_apply]
    split_ifs
    · exact hsize.2
    · exact hsize.1
    · simp [Files.empty]

/-- A small archive comes back. -/
theorem archive_codec_sample : ∃ text fs', encode sampleFormats sampleHeader [] sampleFiles = .ok text ∧
    extract sampleFormats ["backup"] text sampleTarget = (.ok sampleHeader, fs') ∧
    fs'.view ["backup", "folders", "a", "manifest.json"] = some (.inl (utf8 "manifest")) ∧ fs'.view ["other"] = none := by
  obtain ⟨hwrite, hread⟩ := (archive_codec sampleFormats).1 sampleHeader [] sampleFiles (by decide +kernel)
    (by decide +kernel) staged_sampleFiles
  obtain ⟨text, htext⟩ := hwrite.mpr (by decide +kernel)
  obtain ⟨fs', hextract, hcarried, -, -⟩ := hread text ["backup"] sampleTarget htext (by decide +kernel) (by decide +kernel)
  obtain ⟨-, -, -, -, -, -, -, -, -, hframe⟩ := (archive_codec sampleFormats).2 _ _ _ _ _ hextract
  refine ⟨text, fs', htext, hextract, ?_, ?_⟩
  · have hmanifest : sampleFiles.view ["folders", "a", "manifest.json"] = some (.inl (utf8 "manifest")) := by
      decide +kernel
    rw [← hmanifest]
    exact hcarried ["a", "manifest.json"] ⟨by decide +kernel, .inl rfl⟩
  · rw [hframe ["other"] (by decide +kernel)]
    decide +kernel

end Archive
end Everywhere

