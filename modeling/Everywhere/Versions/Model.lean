import Everywhere.Library.Json
import Everywhere.Library.Frontier
import Everywhere.Versions.Clock

/-!
# Contents, revisions and version sets

A revision is a content with the clock at which it was made. For each path a share
keeps a version set: the revisions that no other known revision supersedes, its
*heads*. `Versions.join` merges two version sets, `Versions.edit` makes a new revision
on top of all heads, and `Versions.selected` picks the head that is shown in the folder.

Revisions are told apart by the hash of their JSON text, so the texts are modelled
here byte for byte; the size limits of `join` are limits on the same texts. The hash
function and the Unicode tables are not part of the repository: they are the fields of a
`Platform`.
-/

namespace Everywhere

open Library

/-- What the program takes from outside its own code. -/
structure Platform where
  /-- The BLAKE3 hash of some bytes, in hexadecimal. -/
  blake3 : Bytes → String
  /-- Unicode normalization form C. -/
  nfc : String → String
  /-- The upper case of a character. -/
  toUppercase : Char → List Char

/-- A hexadecimal digit. -/
def hexDigit (n : ℕ) : Char := if n < 10 then Char.ofNat (48 + n) else Char.ofNat (87 + n)

/-- A platform to run examples on: the hash of some bytes is their hexadecimal writing, and characters are
ASCII. -/
def Platform.sample : Platform where
  blake3 bs := String.ofList (bs.flatMap fun b => [hexDigit (b.toNat / 16), hexDigit (b.toNat % 16)])
  nfc := id
  toUppercase c := [c.toUpper]

theorem hexDigit_inj : ∀ m < 16, ∀ n < 16, hexDigit m = hexDigit n → m = n := by decide

/-- The hash of the sample platform has no collisions. -/
theorem Platform.sample_blake3_injective : Function.Injective sample.blake3 := by
  intro a b h
  replace h := String.ofList_injective h
  induction a generalizing b with
  | nil => cases b <;> simp_all
  | cons x a ih =>
    cases b with
    | nil => simp at h
    | cons y b =>
      simp only [List.flatMap_cons, List.cons_append, List.nil_append, List.cons.injEq] at h
      obtain ⟨h1, h2, h3⟩ := h
      have hx := x.toNat_lt
      have hy := y.toNat_lt
      have e1 := hexDigit_inj _ (by omega) _ (by omega) h1
      have e2 := hexDigit_inj _ (by omega) _ (by omega) h2
      rw [ih h3, UInt8.toNat_inj.mp (show x.toNat = y.toNat by omega)]

/-- A platform whose hashes have the length of the real ones. -/
def Platform.padded : Platform where
  __ := sample
  blake3 bs := String.ofList (((List.range 64).map fun k =>
    bs.foldl (fun n b => 256 * n + b.toNat) 0 / 16 ^ (63 - k) % 16).map hexDigit)

theorem utf8Size_hexDigit : ∀ n < 16, (hexDigit n).utf8Size = 1 := by decide

theorem utf8ByteSize_hexDigits {l : List ℕ} (hl : ∀ n ∈ l, n < 16) :
    (String.ofList (l.map hexDigit)).utf8ByteSize = l.length := by
  induction l with
  | nil => rfl
  | cons n l ih =>
    have hn := utf8Size_hexDigit n (hl n (by simp))
    rw [List.map_cons, String.ofList_cons, String.utf8ByteSize_append, ih fun m hm => hl m (by simp [hm])]
    simp only [String.utf8ByteSize_singleton, hn, List.length_cons]
    omega

theorem Platform.padded_length (bytes : Bytes) : (padded.blake3 bytes).utf8ByteSize = 64 := by
  refine (utf8ByteSize_hexDigits fun n hn => ?_).trans (by simp)
  obtain ⟨k, -, rfl⟩ := List.mem_map.mp hn
  exact Nat.mod_lt _ (by decide)

/-- What stands at a path. -/
inductive Content where
  /-- A file whose bytes have this hash. -/
  | file (hash : String)
  /-- A directory. -/
  | directory
  /-- Nothing, because it was deleted. -/
  | deleted
  deriving DecidableEq

/-- A content and the clock at which it was made. -/
structure Revision where
  /-- The edits that the revision has seen, its own included. -/
  clock : Clock
  /-- The content. -/
  content : Content
  deriving DecidableEq

/-- The version set of a path. -/
structure Versions where
  /-- The revisions that no other supersedes. -/
  heads : List Revision
  deriving DecidableEq

/-! ### JSON texts -/

/-- A clock as JSON. -/
def Clock.toJson (c : Clock) : Json := .obj (c.counters.toList.map fun e => (e.1, .num e.2))

/-- A content as JSON. -/
def Content.toJson : Content → Json
  | .file hash => .obj [("kind", .str "file"), ("hash", .str hash)]
  | .directory => .obj [("kind", .str "directory")]
  | .deleted => .obj [("kind", .str "deleted")]

/-- A revision as JSON. -/
def Revision.toJson (r : Revision) : Json :=
  .obj [("clock", r.clock.toJson), ("content", r.content.toJson)]

/-- A version set as JSON. -/
def Versions.toJson (v : Versions) : Json := .obj [("heads", .arr (v.heads.map Revision.toJson))]

theorem Content.depth_toJson (c : Content) : c.toJson.depth ≤ 1 := by cases c <;> exact le_rfl

theorem Revision.depth_toJson (r : Revision) : r.toJson.depth ≤ 2 := by
  have hclock : r.clock.toJson.depth ≤ 1 := by
    refine Json.depth_obj_le.mpr fun m hm => ?_
    obtain ⟨e, -, rfl⟩ := List.mem_map.mp hm
    exact le_rfl
  refine Json.depth_obj_le.mpr fun m hm => ?_
  simp only [List.mem_cons, List.not_mem_nil, or_false] at hm
  rcases hm with rfl | rfl
  · exact hclock
  · exact r.content.depth_toJson

theorem Versions.depth_toJson (v : Versions) : v.toJson.depth ≤ 4 := by
  refine Json.depth_obj_le.mpr fun m hm => ?_
  rw [List.mem_singleton.mp hm]
  refine Json.depth_arr_le.mpr fun j hj => ?_
  obtain ⟨r, -, rfl⟩ := List.mem_map.mp hj
  exact r.depth_toJson

/-- A content read from JSON. -/
def Content.ofJson (j : Json) : Option Content :=
  match j.get "kind", j.get "hash" with
  | some (.str "file"), some (.str hash) => some (.file hash)
  | some (.str "directory"), none | some (.str "directory"), some .null => some .directory
  | some (.str "deleted"), none | some (.str "deleted"), some .null => some .deleted
  | _, _ => none

@[simp] theorem Content.ofJson_toJson (c : Content) : ofJson c.toJson = some c := by
  cases c <;> simp [ofJson, toJson, Json.get, List.lookup]

/-- The text of a content is short. -/
theorem Content.length_render_le {c : Content} (h : ∀ hash, c = .file hash → hash.utf8ByteSize = 64) :
    c.toJson.render.length ≤ 512 := by
  cases c with
  | file hash =>
    have := Json.length_quoted_le hash
    rw [h hash rfl] at this
    have hkind : (Json.quoted "kind").length = 6 := by decide +kernel
    have hhash : (Json.quoted "hash").length = 6 := by decide +kernel
    have hfile : (Json.quoted "file").length = 6 := by decide +kernel
    simp [toJson, Json.render, Json.renderMembers]
    omega
  | directory => decide +kernel
  | deleted => decide +kernel

theorem Content.toJson_injective : Function.Injective Content.toJson := fun a b h => by
  have := congrArg ofJson h
  simpa using this

theorem Clock.toJson_injective : Function.Injective Clock.toJson := by
  rintro ⟨a⟩ ⟨b⟩ h
  rw [toJson, toJson, Json.obj.injEq] at h
  have hf : Function.Injective fun e : String × ℕ => (e.1, Json.num e.2) := by
    rintro ⟨d, n⟩ ⟨d', n'⟩ h
    simpa using h
  congr 1
  apply Std.ExtTreeMap.ext_getElem?
  intro d
  apply Option.ext
  intro n
  rw [← Std.ExtTreeMap.mem_toList_iff_getElem?_eq_some, ← Std.ExtTreeMap.mem_toList_iff_getElem?_eq_some,
    hf.list_map h]

theorem Revision.toJson_injective : Function.Injective Revision.toJson := by
  rintro ⟨a, x⟩ ⟨b, y⟩ h
  rw [toJson, toJson, Json.obj.injEq] at h
  simp only [List.cons.injEq, Prod.mk.injEq, true_and, and_true] at h
  rw [Clock.toJson_injective h.1, Content.toJson_injective h.2]

/-! ### Version sets -/

section

variable (P : Platform)

/-- The identifier of a revision. -/
def Revision.id (r : Revision) : String := P.blake3 r.toJson.render

/-- Where the hash is free of collisions, so are the identifiers. -/
theorem Revision.id_injective {P : Platform} (h : Function.Injective P.blake3) :
    Function.Injective (Revision.id P) :=
  h.comp (Json.render_injective.comp toJson_injective)

/-- A digest as the program writes it: 64 lower-case hexadecimal digits. -/
def isHash (s : String) : Bool :=
  s.utf8ByteSize = 64 && (utf8 s).all fun b => (48 ≤ b && b ≤ 57) || (97 ≤ b && b ≤ 102)

theorem size_of_isHash {s : String} (h : isHash s = true) : s.utf8ByteSize = 64 := by
  simpa using ((Bool.and_eq_true _ _).mp h).1

/-- A digest is quoted as it is. -/
theorem length_quoted_of_isHash {s : String} (h : isHash s = true) : (Json.quoted s).length = 66 := by
  have plain (b : UInt8) (hb : (48 ≤ b && b ≤ 57) || (97 ≤ b && b ≤ 102)) : Json.escapeByte b = [b] := by
    have h1 : b ≠ 34 ∧ b ≠ 92 ∧ b ≠ 8 ∧ b ≠ 12 ∧ b ≠ 10 ∧ b ≠ 13 ∧ b ≠ 9 ∧ ¬ b < 32 := by
      refine ⟨?_, ?_, ?_, ?_, ?_, ?_, ?_, fun hlt => ?_⟩
      case refine_8 =>
        simp only [Bool.or_eq_true, Bool.and_eq_true, decide_eq_true_eq, UInt8.le_iff_toNat_le] at hb
        rw [UInt8.lt_iff_toNat_lt] at hlt
        simp at hb hlt
        omega
      all_goals
        rintro rfl
        revert hb
        decide
    obtain ⟨h1, h2, h3, h4, h5, h6, h7, h8⟩ := h1
    rw [Json.escapeByte, if_neg h1, if_neg h2, if_neg h3, if_neg h4, if_neg h5, if_neg h6, if_neg h7, if_neg h8]
  have hall := List.all_eq_true.mp ((Bool.and_eq_true _ _).mp h).2
  have hescape : Json.escape (utf8 s) = utf8 s := by
    rw [Json.escape, List.flatMap_congr (g := fun b => [b]) fun b hb => plain b (hall b hb)]
    exact List.flatMap_singleton' _
  have hsize := size_of_isHash h
  rw [← length_utf8] at hsize
  simp only [Json.quoted, hescape, List.length_cons, List.length_append, List.length_nil, hsize]

theorem utf8_append (s t : String) : utf8 (s ++ t) = utf8 s ++ utf8 t := by
  simp [utf8, String.toByteArray_append]

theorem utf8_hexDigit : ∀ n < 16, (utf8 (String.singleton (hexDigit n))).all fun b =>
    (48 ≤ b && b ≤ 57) || (97 ≤ b && b ≤ 102) := by
  decide +kernel

/-- The hashes of the padded platform are digests as the program writes them. -/
theorem Platform.padded_isHash (bytes : Bytes) : isHash (padded.blake3 bytes) = true := by
  have digits {l : List ℕ} (hl : ∀ n ∈ l, n < 16) : (utf8 (String.ofList (l.map hexDigit))).all fun b =>
      (48 ≤ b && b ≤ 57) || (97 ≤ b && b ≤ 102) := by
    induction l with
    | nil => rfl
    | cons n l ih =>
      rw [List.map_cons, String.ofList_cons, utf8_append, List.all_append, Bool.and_eq_true]
      exact ⟨utf8_hexDigit n (hl n (by simp)), ih fun m hm => hl m (by simp [hm])⟩
  rw [isHash, Bool.and_eq_true, decide_eq_true_eq]
  refine ⟨padded_length bytes, digits fun n hn => ?_⟩
  obtain ⟨k, -, rfl⟩ := List.mem_map.mp hn
  exact Nat.mod_lt _ (by decide)

/-- The check that `join` makes of each revision. -/
def Revision.check (r : Revision) : Result Unit := do
  r.clock.validate
  match r.content with
  | .file hash => ensure (isHash hash) "invalid content hash"
  | .directory | .deleted => pure ()

namespace Versions

/-- The version set of a path nothing is known about. -/
def default : Versions := ⟨[]⟩

/-- The length of the text of a version set. -/
def size (v : Versions) : ℕ := v.toJson.render.length

/-- Merge two version sets: keep what is not superseded, each revision once, by identifier. -/
def join (self other : Versions) : Result Versions := do
  ensure (self.size ≤ 64 * 1024 ∧ other.size ≤ 64 * 1024) "version metadata exceeds the per-path limit"
  ensure (self.heads.length ≤ 128 ∧ other.heads.length ≤ 128) "too many concurrent versions"
  (self.heads ++ other.heads).forM Revision.check
  let candidates := canon (Revision.id P) (self.heads ++ other.heads)
  ensure (∀ a ∈ candidates, ∀ b ∈ candidates, a.clock.relation b.clock ≠ .equal ∨ a.content = b.content)
    "equal clock with different content"
  let heads := candidates.filter fun candidate =>
    !candidates.any fun other => candidate.clock.relation other.clock = .before
  ensure (heads.length ≤ 128) "too many concurrent versions"
  let result : Versions := ⟨heads⟩
  ensure (result.size ≤ 64 * 1024) "version metadata exceeds the per-path limit"
  pure result

/-- The clock that has seen all heads. -/
def clock (v : Versions) : Clock := v.heads.foldl (fun v h => v.merge h.clock) .default

/-- A new revision of a device on top of all heads. -/
def edit (self : Versions) (device : String) (content : Content) : Result Versions := do
  let clock ← self.clock.advance device
  default.join P ⟨[⟨clock, content⟩]⟩

/-- The order in which contents are preferred. -/
def rank : Content → ℕ
  | .file _ => 0
  | .directory => 1
  | .deleted => 2

/-- The least element of a list by a key, the first of several. -/
def minByKey {α κ : Type} [LinearOrder κ] (key : α → κ) : List α → Option α
  | [] => none
  | a :: l => some (l.foldl (fun best b => if key b < key best then b else best) a)

/-- The head that is shown in the folder: files before directories before deletions. -/
def selected (self : Versions) : Option Revision :=
  minByKey (fun h => toLex (rank h.content, h.id P)) self.heads

end Versions

end

/-! ### Paths -/

/-- The names of a path. -/
def components (path : String) : List String := (path.toList.splitOn '/').map String.ofList

/-- A control character. -/
def isControl (c : Char) : Bool := c.val < 32 || (127 ≤ c.val && c.val < 160)

/-- The check of one name of a path. -/
def validateName (name : String) : Result Unit := do
  ensure (name ≠ "" ∧ name ≠ "." ∧ name ≠ ".." ∧ name.utf8ByteSize ≤ 240) "unsafe path component"
  ensure (¬ ".everywhere-".toList <+: name.toList.map Char.toLower) "reserved application path"
  ensure (name.toList.getLast? ≠ some '.' ∧ name.toList.getLast? ≠ some ' ') "nonportable trailing dot or space"
  ensure (name.toList.any (fun c => isControl c || "<>:\"\\|?*".toList.contains c) = false) "nonportable filename"
  let stem := (name.toList.takeWhile (· ≠ '.')).map Char.toUpper
  ensure (stem ∉ ["CON".toList, "PRN".toList, "AUX".toList, "NUL".toList]) "reserved Windows filename"
  ensure (¬ (("COM".toList <+: stem ∨ "LPT".toList <+: stem) ∧ (String.ofList stem).utf8ByteSize = 4 ∧
    stem.getLast?.any fun c => '1' ≤ c && c ≤ '9')) "reserved Windows filename"

/-- The check of a path: relative, portable, and not one of the program's own names. -/
def validatePath (path : String) : Result Unit := do
  ensure (path ≠ "" ∧ path.utf8ByteSize ≤ 4096) "invalid path length"
  (components path).forM validateName

/-- What two paths that some platform could take for one have in common. -/
def collisionKey (P : Platform) (path : String) : String :=
  String.ofList ((P.nfc path).toList.flatMap P.toUppercase)

end Everywhere
