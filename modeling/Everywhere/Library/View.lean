import Everywhere.Library.Files

/-!
# What a reader finds

What a path of a file system leads to, with the bytes of files (`Files.view`): inodes do not matter to a reader. A new
file is one more path (`view_write`), and so is a new directory (`view_createDir`).
-/

namespace Everywhere.Library

namespace Files

variable {fs fs' : Files} {p q : FilePath} {x : String} {i : ℕ} {bytes : Bytes} {n : Node}

/-- What a reader finds at a path: the bytes of a file, or another node. -/
def view (fs : Files) (p : FilePath) : Option (Bytes ⊕ Node) :=
  (fs.node p).map fun
    | .file i => .inl (fs.inode i).bytes
    | n => .inr n

theorem view_eq_none : fs.view p = none ↔ fs.node p = none := by simp [view]

theorem view_eq_dir : fs.view p = some (.inr .dir) ↔ fs.node p = some .dir := by
  rw [view]
  rcases fs.node p with _ | _ | _ | _ | _ <;> simp

theorem view_file (h : fs.node p = some (.file i)) : fs.view p = some (.inl (fs.inode i).bytes) := by
  rw [view, h]
  rfl

theorem view_congr (hnode : fs'.node p = fs.node p) (hinode : ∀ i, fs.node p = some (.file i) →
    (fs'.inode i).bytes = (fs.inode i).bytes) : fs'.view p = fs.view p := by
  rw [view, view, hnode]
  cases hn : fs.node p with
  | none => rfl
  | some n =>
    cases n with
    | file i => simp [hinode i hn]
    | dir | link | special => rfl

/-- Write bytes to an open file. -/
def write (i : ℕ) (bytes : Bytes) (fs : Files) : Files := bytes.foldl (fun fs b => (fs.append i b).2) fs

@[simp] theorem node_write : (fs.write i bytes).node = fs.node := by
  induction bytes generalizing fs with
  | nil => rfl
  | cons b bytes ih => exact ih

theorem bytes_write : ((fs.write i bytes).inode i).bytes = (fs.inode i).bytes ++ bytes := by
  induction bytes generalizing fs with
  | nil => simp [write]
  | cons b bytes ih =>
    refine (@ih (fs.append i b).2).trans ?_
    simp [append, inode_setInode]

theorem inode_write_ne {j : ℕ} (h : j ≠ i) : (fs.write i bytes).inode j = fs.inode j := by
  induction bytes generalizing fs with
  | nil => rfl
  | cons b bytes ih =>
    refine (@ih (fs.append i b).2).trans ?_
    simp [append, inode_setInode, h]

/-- A file that is made and written is one more path. -/
theorem view_write (h : (fs.createNew p).1 = .ok i) (q : FilePath) :
    ((fs.createNew p).2.write i bytes).view q = if q = p then some (.inl bytes) else fs.view q := by
  obtain ⟨rfl, hnode⟩ := createNew_ok h
  obtain ⟨hadds, hinode⟩ := @adds_createNew fs p
  split_ifs with hq
  · subst hq
    rw [view_file (i := fs.fresh) (by rw [node_write, hnode]), bytes_write, createNew_bytes h, List.nil_append]
  · refine view_congr (by rw [node_write]; exact (hadds q).resolve_right fun h => hq h.1) fun j hj => ?_
    have hlt := fs.lt_fresh q j hj
    rw [inode_write_ne (by omega), hinode j hlt]

/-- Nothing was there before. -/
theorem createNew_view (h : (fs.createNew p).1 = .ok i) : fs.view p = none := by
  obtain ⟨rfl, hnode⟩ := createNew_ok h
  rcases adds_createNew.1 p with he | ⟨-, hn⟩
  · have := fs.lt_fresh p fs.fresh (he.symm.trans hnode)
    omega
  · exact view_eq_none.mpr hn

/-- A directory that is made is one more path. -/
theorem view_createDir (h : (fs.createDir p).1 = .ok ()) (hp : p ≠ []) (q : FilePath) :
    (fs.createDir p).2.view q = if q = p then some (.inr .dir) else fs.view q := by
  obtain ⟨hadds, -⟩ := @adds_createDir fs p
  split_ifs with hq
  · subst hq
    exact view_eq_dir.mpr (place_ok h hp)
  · exact view_congr ((hadds q).resolve_right fun h => hq h.1) fun j _ => congrArg _ (congrFun inode_place j)

end Files

end Everywhere.Library
