import Everywhere.Frames
import Everywhere.Folder.Journal
import Everywhere.Library.Objects
import Everywhere.Share.Checkpoint
import Everywhere.Storage.Receiver

/-!
# Limits

What one end writes the other must be able to read, and a program what it has written itself. The limits are constants in
several places: a path has at most 4096 bytes and a version set 64 KiB, and a page of 32 records must go through a frame of
4 MiB; a file has at most a tebibyte in blocks of a mebibyte, and the hashes of its blocks must go through a frame of 80 MiB, as
must the numbers of the blocks that are wanted; and a journal with two manifests is read up to 160 MiB.

* `length_toJson_le` — a manifest is as long as its hashes.
* `run_readJson` — a document that is not too long is read as it was written.
* `limits_agree` — every page, manifest, request and journal that can occur is within its limit.
-/

namespace Everywhere

open Library

/-! ### Documents -/

/-- A record as a document. -/
def Record.toJson (r : Record) : Json := .obj [("path", .str r.path), ("versions", r.versions.toJson), ("seq", .num r.seq)]

/-- Records, or their end, as a document. -/
def Metadata.toJson : Metadata → Json
  | .page records => .obj [("message", .str "page"), ("records", .arr (records.map Record.toJson))]
  | .end_ => .obj [("message", .str "end")]

/-- The numbers of blocks as a document. -/
def requestToJson (missing : List ℕ) : Json := .arr (missing.map .num)

/-- The longest journal that is read. -/
def maxJournal : ℕ := 160 * 1024 * 1024

/-! ### Records -/

/-- A record of a row that is in order. -/
theorem length_record_le {P : Platform} {r : Record} (hpath : validatePath r.path = .ok ()) (hversions : r.versions.Canonical P)
    (hseq : r.seq ≤ i64Max) : r.toJson.render.length ≤ 6 * 4096 + 64 * 1024 + 64 := by
  have hquoted := Json.length_quoted_le r.path
  have hsize := size_le_of_validatePath hpath
  have hset := hversions.size_le
  rw [Versions.size] at hset
  have hdigits : (Json.decimal r.seq).length ≤ 20 :=
    Json.length_decimal_le (hseq.trans_lt (by rw [i64Max]; norm_num))
  have h1 : (Json.quoted "path").length = 6 := rfl
  have h2 : (Json.quoted "versions").length = 10 := rfl
  have h3 : (Json.quoted "seq").length = 5 := rfl
  simp only [Record.toJson, Json.render, Json.renderMembers, List.length_cons, List.length_append, List.length_nil]
  omega

theorem depth_page (records : List Record) : (Metadata.page records).toJson.depth < Json.maxDepth := by
  have hrecord : ∀ r : Record, r.toJson.depth ≤ 5 := by
    intro r
    refine Json.depth_obj_le.mpr fun m hm => ?_
    simp only [List.mem_cons, List.not_mem_nil, or_false] at hm
    rcases hm with rfl | rfl | rfl <;> first | exact r.versions.depth_toJson | exact Nat.zero_le _
  have hdepth : (Metadata.page records).toJson.depth ≤ 7 := by
    refine Json.depth_obj_le.mpr fun m hm => ?_
    simp only [List.mem_cons, List.not_mem_nil, or_false] at hm
    rcases hm with rfl | rfl
    · exact Nat.zero_le _
    · refine Json.depth_arr_le.mpr fun j hj => ?_
      obtain ⟨r, -, rfl⟩ := List.mem_map.mp hj
      exact hrecord r
  exact hdepth.trans_lt (by decide)

/-- A page of at most 32 records goes through. -/
theorem passes_page {records : List Record} (hcount : records.length ≤ 32)
    (hrecords : ∀ r ∈ records, r.toJson.render.length ≤ 6 * 4096 + 64 * 1024 + 64) :
    Passes controlFrame (Metadata.page records).toJson := by
  have hlist := Json.length_renderItems_le (l := records.map Record.toJson) fun j hj => by
    obtain ⟨r, hr, rfl⟩ := List.mem_map.mp hj
    exact hrecords r hr
  rw [List.length_map] at hlist
  have hpage := hlist.trans (Nat.mul_le_mul_right _ hcount)
  have h1 : (Json.quoted "message").length = 9 := rfl
  have h2 : (Json.quoted "page").length = 6 := rfl
  have h3 : (Json.quoted "records").length = 9 := rfl
  refine passes_iff.mpr ⟨?_, depth_page records⟩
  rw [controlFrame]
  simp only [Metadata.toJson, Json.render, Json.renderMembers, List.length_cons, List.length_append, List.length_nil]
  omega

/-- Every page that a share sends goes through. -/
theorem passes_records {P : Platform} {i : Index} (hi : i.Sound P) (hn : i.Numbered) (since ceiling : ℕ) :
    Passes controlFrame (Metadata.page (i.records since ceiling 32)).toJson := by
  refine passes_page (by simp [Index.records]) fun r hr => ?_
  obtain ⟨⟨l, hl, hversions, hseq⟩, -⟩ := Index.mem_records hr
  obtain ⟨hpath, hrow⟩ := hi.rows r.path l hl
  refine length_record_le hpath (hversions ▸ hrow.versions.canonical) ?_
  rw [← hseq]
  exact (hn.range r.path l hl).2.trans hi.ceiling

/-! ### Manifests -/

/-- The number of blocks of a file. -/
theorem length_blocks_le {m : Manifest} (h : m.validate = .ok ()) : m.blocks.length ≤ 2 ^ 20 := by
  obtain ⟨hsize, hblocks, -, -⟩ := Manifest.validate_eq_ok.mp h
  rw [hblocks]
  rw [maxSize] at hsize
  rw [blockSize]
  omega

/-- A manifest is as long as its hashes. -/
theorem length_toJson_le {m : Manifest} (h : m.validate = .ok ()) : m.toJson.render.length ≤ 67 * 2 ^ 20 + 128 := by
  have hcount := length_blocks_le h
  obtain ⟨hsize, -, hhash, hblocks⟩ := Manifest.validate_eq_ok.mp h
  have hlist := Json.length_renderItems_le (b := 66) (l := m.blocks.map Json.str) fun j hj => by
    obtain ⟨b, hb, rfl⟩ := List.mem_map.mp hj
    exact (length_quoted_of_isHash (hblocks b hb)).le
  rw [List.length_map] at hlist
  have hquoted := length_quoted_of_isHash hhash
  have hdigits : (Json.decimal m.size).length ≤ 20 := Json.length_decimal_le (hsize.trans_lt (by rw [maxSize]; norm_num))
  have h1 : (Json.quoted "size").length = 6 := rfl
  have h2 : (Json.quoted "hash").length = 6 := rfl
  have h3 : (Json.quoted "blocks").length = 8 := rfl
  simp only [Manifest.toJson, Json.render, Json.renderMembers, List.length_cons, List.length_append, List.length_nil]
  omega

/-- A manifest goes through. -/
theorem passes_manifest {m : Manifest} (h : m.validate = .ok ()) : Passes maxFrame m.toJson := by
  have := length_toJson_le h
  refine passes_iff.mpr ⟨?_, m.depth_toJson.1.trans_lt (by decide)⟩
  rw [maxFrame]
  omega

/-- A request for blocks goes through: there are at most as many numbers in it as blocks, and each is a machine number. -/
theorem passes_request {m : Manifest} (h : m.validate = .ok ()) {missing : List ℕ} (hcount : missing.length ≤ m.blocks.length)
    (hindices : ∀ index ∈ missing, index < 2 ^ 64) : Passes maxFrame (requestToJson missing) := by
  have hblocks := length_blocks_le h
  have hlist := Json.length_renderItems_le (b := 20) (l := missing.map Json.num) fun j hj => by
    obtain ⟨index, hindex, rfl⟩ := List.mem_map.mp hj
    exact Json.length_decimal_le (hindices index hindex)
  rw [List.length_map] at hlist
  have hdepth : (requestToJson missing).depth ≤ 1 := by
    refine Json.depth_arr_le.mpr fun j hj => ?_
    obtain ⟨index, -, rfl⟩ := List.mem_map.mp hj
    exact le_rfl
  refine passes_iff.mpr ⟨?_, hdepth.trans_lt (by decide)⟩
  rw [maxFrame]
  simp only [requestToJson, Json.render, List.length_cons, List.length_append, List.length_nil]
  omega

/-! ### Journals -/

theorem mapM_stringOfJson (l : List String) : l.mapM (stringOfJson ∘ Json.str) = some l := by
  induction l with
  | nil => rfl
  | cons s l ih =>
    rw [List.mapM_cons, ih]
    rfl

theorem Manifest.ofJson_toJson (m : Manifest) : Manifest.ofJson m.toJson = some m := by
  simp [Manifest.toJson, Manifest.ofJson, Json.get, List.lookup, mapM_stringOfJson]

theorem Transfer.ofJson_toJson (t : Transfer) : Transfer.ofJson t.toJson = some t := by
  obtain ⟨manifest, original⟩ := t
  cases original with
  | none => simp [Transfer.toJson, Transfer.ofJson, Json.get, List.lookup, Manifest.ofJson_toJson]
  | some m =>
    have hm := Manifest.ofJson_toJson m
    simp [Transfer.toJson, Transfer.ofJson, Json.get, List.lookup, Manifest.ofJson_toJson]
    exact congrArg (fun o => (Option.map some o).bind fun original => some (⟨manifest, original⟩ : Transfer)) hm

theorem InstallIntent.ofJson_toJson (i : InstallIntent) : InstallIntent.ofJson i.toJson = some i := by
  simp [InstallIntent.toJson, InstallIntent.ofJson, Json.get, List.lookup, Manifest.ofJson_toJson]

/-- A document that is not too long is read as it was written. -/
theorem run_readJson {α : Type} {ofJson : Json → Option α} {a : α} {j : Json} {path : FilePath} {fs : Files}
    (hread : Files.read path fs = (.ok j.render, fs)) (hlen : j.render.length ≤ maxJournal) (hdepth : j.depth ≤ 3)
    (hof : ofJson j = some a) :
    Fallible.run (readJson ofJson path : Io Files α) fs = (.ok a, fs) := by
  rw [maxJournal] at hlen
  have hparse : (Json.parse (j.render.take (160 * 1024 * 1024))).bind ofJson = some a := by
    rw [List.take_of_length_le hlen, Json.parse_render (hdepth.trans (by decide))]
    exact hof
  have hcall : Fallible.run (call (Files.read path) : Io Files Bytes) fs = (.ok j.render, fs) := by
    rw [run_call, hread]
    rfl
  rw [readJson, run_bind_ok hcall]
  simp only [hparse]
  rfl

theorem length_transfer_le {t : Transfer} (hm : t.manifest.validate = .ok ())
    (ho : ∀ o, t.original = some o → o.validate = .ok ()) : t.toJson.render.length ≤ maxJournal := by
  have hmanifest := length_toJson_le hm
  have horiginal : (t.original.elim Json.null Manifest.toJson).render.length ≤ 67 * 2 ^ 20 + 128 := by
    cases h : t.original with
    | none =>
      have hnull : Json.null.render.length = 4 := rfl
      rw [Option.elim_none, hnull]
      omega
    | some o => exact length_toJson_le (ho o h)
  have h1 : (Json.quoted "manifest").length = 10 := rfl
  have h2 : (Json.quoted "original").length = 10 := rfl
  rw [maxJournal]
  simp only [Transfer.toJson, Json.render, Json.renderMembers, List.length_cons, List.length_append, List.length_nil]
  omega

theorem length_intent_le {i : InstallIntent} (hid : isHash i.recoveryId = true) (ho : i.original.validate = .ok ())
    (hi : i.incoming.validate = .ok ()) : i.toJson.render.length ≤ maxJournal := by
  have horiginal := length_toJson_le ho
  have hincoming := length_toJson_le hi
  have hquoted := length_quoted_of_isHash hid
  have h1 : (Json.quoted "recovery_id").length = 13 := rfl
  have h2 : (Json.quoted "original").length = 10 := rfl
  have h3 : (Json.quoted "incoming").length = 10 := rfl
  rw [maxJournal]
  simp only [InstallIntent.toJson, Json.render, Json.renderMembers, List.length_cons, List.length_append, List.length_nil]
  omega

/-! ### All of them -/

/-- **What is written can be read.** Every page that a share sends in a state that it may be in goes through; of every valid
manifest, so do the manifest and every request for its blocks; and the journals that hold it with another one are
read as they were written. -/
theorem limits_agree {β : Type} (P : Platform) (hhash : ∀ bytes, isHash (P.blake3 bytes) = true) (W : Wire β) (s : Share β)
    (h : Share.Reachable P W s) :
    (∀ since ceiling, Passes controlFrame (Metadata.page (s.index.records since ceiling 32)).toJson) ∧
    ∀ m : Manifest, m.validate = .ok () →
      Passes maxFrame m.toJson ∧
      (∀ missing : List ℕ, missing.length ≤ m.blocks.length → (∀ index ∈ missing, index < 2 ^ 64) →
        Passes maxFrame (requestToJson missing)) ∧
      (∀ original : Option Manifest, (∀ o, original = some o → o.validate = .ok ()) →
        (Transfer.toJson ⟨m, original⟩).render.length ≤ maxJournal ∧
        ∀ path fs, Files.read path fs = (.ok (Transfer.toJson ⟨m, original⟩).render, fs) →
          Fallible.run (readJson Transfer.ofJson path : Io Files Transfer) fs = (.ok ⟨m, original⟩, fs)) ∧
      (∀ (id : String) (original : Manifest), isHash id = true → original.validate = .ok () →
        (InstallIntent.toJson ⟨id, original, m⟩).render.length ≤ maxJournal ∧
        ∀ path fs, Files.read path fs = (.ok (InstallIntent.toJson ⟨id, original, m⟩).render, fs) →
          Fallible.run (readJson InstallIntent.ofJson path : Io Files InstallIntent) fs = (.ok ⟨id, original, m⟩, fs)) := by
  refine ⟨fun since ceiling => passes_records (h.sound hhash) h.numbered since ceiling, fun m hm =>
    ⟨passes_manifest hm, fun missing hcount hindices => passes_request hm hcount hindices, fun original ho => ?_,
      fun id original hid ho => ?_⟩⟩
  · have hlen := @length_transfer_le ⟨m, original⟩ hm ho
    exact ⟨hlen, fun path fs hread => run_readJson hread hlen (Transfer.depth_toJson _) (Transfer.ofJson_toJson _)⟩
  · have hlen := @length_intent_le ⟨id, original, m⟩ hid ho hm
    exact ⟨hlen, fun path fs hread => run_readJson hread hlen (InstallIntent.depth_toJson _).1
      (InstallIntent.ofJson_toJson _)⟩

/-- After a first scan, every page goes through. -/
theorem limits_agree_scanned : ∃ s : Share Unit, (s.index.entries["d"]?).isSome ∧
    ∀ since ceiling, Passes controlFrame (Metadata.page (s.index.records since ceiling 32)).toJson :=
  ⟨(Fallible.run ((Share.Op.scan false).program .padded Share.silent) Share.generated).2, by decide +kernel,
    (limits_agree .padded Platform.padded_isHash Share.silent _
      (.run (.scan false) (.create ⟨rfl, rfl⟩) (Prog.reaches_run _ _ _))).1⟩

end Everywhere
