import Everywhere.Library.Json

/-!
# A file system

A tree of names over files. A file is an inode: several names may lead to it, and it stays
when a name is removed, so what matters for the safety of its bytes is whether a name is
left. The operations are the system calls, each atomic:

* names are made (`createDir`, `createNew`, `link`) only where there is none;
* `rename` moves a whole subtree, and overwrites a file that is in the way;
* `removeDir` removes only an empty directory;
* a file is written by appending to its inode, so that any prefix may be on the disk.

Every operation is a function that returns its result and the new state. The theorems
about them are of two kinds: when the operation succeeds and with what (`createDir_eq`, …),
and, whatever the result, what it leaves alone (`adds_createDir`, …).

A symbolic link that is the last name is followed when a file is opened, and by nothing else: it is
removed, moved and given another name as itself. A symbolic link among the directories on the way ends
the call here with an error; where that makes a difference, the results are about runs in which no
such link gets into the way (`Files.Direct`).
-/

namespace Everywhere.Library

/-- A path: the names from the root of the tree. -/
abbrev FilePath := List String

/-- What a name stands for. -/
inductive Node where
  /-- A file: its inode. -/
  | file (ino : ℕ)
  /-- A directory. -/
  | dir
  /-- A symbolic link, and the file that it leads to, if it leads to one in the tree. -/
  | link (leads : Option ℕ)
  /-- A device, a pipe or a socket. -/
  | special
  deriving DecidableEq

namespace Node

/-- The file that is opened. -/
def opens : Node → Option ℕ
  | .file i => some i
  | .link leads => leads
  | .dir | .special => none

/-- A file, and no link to one. -/
def isFile : Node → Bool
  | .file _ => true
  | _ => false

/-- A symbolic link. -/
def isLink : Node → Bool
  | .link _ => true
  | _ => false

end Node

/-- The contents of a file. -/
structure Inode where
  /-- The bytes. -/
  bytes : Bytes
  /-- The time of the last modification. -/
  modified : ℕ
  deriving DecidableEq

/-- The ways in which a call fails. -/
inductive IoError where
  /-- Nothing of that name. -/
  | notFound
  /-- The name is taken. -/
  | alreadyExists
  /-- A name on the way, or the last, is not a directory. -/
  | notADirectory
  /-- The name is that of a directory. -/
  | isADirectory
  /-- The directory is not empty. -/
  | notEmpty
  /-- The file ends too early. -/
  | unexpectedEof
  /-- The operation does not apply to what the name stands for. -/
  | notPermitted
  deriving DecidableEq

/-- A file system. -/
structure Files where
  /-- What each path stands for. -/
  node : FilePath → Option Node
  /-- The paths in the order in which directories list them. -/
  names : List FilePath
  /-- Every path that stands for something is listed. -/
  mem_names : ∀ p, node p ≠ none → p ∈ names
  /-- The root is a directory. -/
  root : node [] = some .dir
  /-- What has something in it is a directory. -/
  parent : ∀ p x, node (p ++ [x]) ≠ none → node p = some .dir
  /-- The files. -/
  inode : ℕ → Inode
  /-- The next inode to be used. -/
  fresh : ℕ
  /-- Inodes in use are below the next one. -/
  opens_lt : ∀ p n i, node p = some n → n.opens = some i → i < fresh

namespace Files

/-- The file system with nothing in it. -/
def empty : Files where
  node p := if p = [] then some .dir else none
  names := [[]]
  mem_names p h := by split_ifs at h <;> simp_all
  root := rfl
  parent p x h := by simp at h
  inode _ := ⟨[], 0⟩
  fresh := 0
  opens_lt p n i h hi := by
    split_ifs at h
    obtain rfl := Option.some.inj h
    cases hi

theorem lt_fresh (fs : Files) (p : FilePath) (i : ℕ) (h : fs.node p = some (.file i)) : i < fs.fresh :=
  fs.opens_lt p _ i h rfl

/-- The outcome of a call. -/
abbrev Outcome (α : Type) := Except IoError α × Files

/-! ### Looking up names -/

/-- Go into a directory. -/
def enter (fs : Files) (p : FilePath) : Except IoError Unit :=
  match fs.node p with
  | some .dir => .ok ()
  | some _ => .error .notADirectory
  | none => .error .notFound

/-- Follow the names up to the last one. -/
def ancestors (fs : Files) (p : FilePath) : Except IoError Unit := p.inits.dropLast.forM fs.enter

/-- Follow all names. -/
def lookup (fs : Files) (p : FilePath) : Except IoError Node := do
  fs.ancestors p
  match fs.node p with
  | some n => .ok n
  | none => .error .notFound

/-- The names in a directory. -/
def children (fs : Files) (p : FilePath) : List String :=
  (fs.names.filterMap fun q =>
    if q.dropLast = p ∧ fs.node q ≠ none then q.getLast? else none).dedup

/-- Everything above something is a directory. -/
theorem node_of_prefix (fs : Files) {p q : FilePath} (hp : fs.node p ≠ none) (hq : q <+: p) (hne : q ≠ p) :
    fs.node q = some .dir := by
  induction p using List.reverseRecOn with
  | nil => exact absurd (List.prefix_nil.mp hq) hne
  | append_singleton p x ih =>
    have hd := fs.parent p x hp
    rcases List.prefix_concat_iff.mp hq with he | hq
    · exact absurd he hne
    · by_cases he : q = p
      · rwa [he]
      · exact ih (by simp [hd]) hq he

theorem mem_inits_dropLast {p q : FilePath} : q ∈ p.inits.dropLast ↔ q <+: p ∧ q ≠ p := by
  induction p using List.reverseRecOn with
  | nil => simp
  | append_singleton p x ih =>
    rw [List.inits_append]
    simp only [List.inits, List.tail_cons, List.map_nil, List.map_cons, List.dropLast_concat, List.mem_inits]
    constructor
    · exact fun h => ⟨h.trans (List.prefix_append p [x]), fun he => by
        have := h.length_le
        simp [he] at this⟩
    · rintro ⟨h, hne⟩
      exact (List.prefix_concat_iff.mp h).resolve_left hne

theorem enter_eq_ok {fs : Files} {p : FilePath} : fs.enter p = .ok () ↔ fs.node p = some .dir := by
  rw [enter]
  rcases fs.node p with _ | _ | _ | _ | _ <;> simp

theorem ancestors_eq_ok {fs : Files} {p : FilePath} :
    fs.ancestors p = .ok () ↔ ∀ q, q <+: p → q ≠ p → fs.node q = some .dir := by
  have hstep : ∀ l : List FilePath, l.forM fs.enter = .ok () ↔ ∀ q ∈ l, fs.node q = some .dir := by
    intro l
    induction l with
    | nil => simp [pure, Except.pure]
    | cons q l ih =>
      change (fs.enter q >>= fun _ => List.forM l fs.enter) = _ ↔ _
      rw [List.forall_mem_cons, ← ih, ← enter_eq_ok]
      rcases fs.enter q with e | ⟨⟩ <;> simp [bind, Except.bind]
  rw [ancestors, hstep]
  simp only [mem_inits_dropLast, and_imp]

theorem inits_concat (p : FilePath) (x : String) : (p ++ [x]).inits = p.inits ++ [p ++ [x]] := by
  simp [List.inits_append]

theorem inits_dropLast_concat (p : FilePath) : p.inits = p.inits.dropLast ++ [p] := by
  induction p using List.reverseRecOn with
  | nil => rfl
  | append_singleton p x _ => rw [inits_concat, List.dropLast_concat]

/-- One name further. -/
theorem ancestors_append (fs : Files) (p : FilePath) (x : String) :
    fs.ancestors (p ++ [x]) = fs.ancestors p >>= fun _ => fs.enter p := by
  have happend : ∀ l : List FilePath, (l ++ [p]).forM fs.enter = l.forM fs.enter >>= fun _ => fs.enter p := by
    intro l
    induction l with
    | nil =>
      change (fs.enter p >>= fun _ => pure PUnit.unit) = fs.enter p
      rcases fs.enter p with e | ⟨⟩ <;> rfl
    | cons q l ih =>
      change (fs.enter q >>= fun _ => (l ++ [p]).forM fs.enter) = (fs.enter q >>= fun _ => l.forM fs.enter) >>= _
      rw [ih, bind_assoc]
  rw [ancestors, inits_concat, List.dropLast_concat, inits_dropLast_concat p, happend]
  rfl

theorem ancestors_congr {fs fs' : Files} {p : FilePath} (h : ∀ q, q <+: p → q ≠ p → fs'.node q = fs.node q) :
    fs'.ancestors p = fs.ancestors p := by
  induction p using List.reverseRecOn with
  | nil => rfl
  | append_singleton p x ih =>
    have hp : fs'.enter p = fs.enter p := by
      rw [enter, enter, h p (List.prefix_append p [x]) (by simp)]
    rw [ancestors_append, ancestors_append, hp, ih fun q hq _ => h q (hq.trans (List.prefix_append p [x])) ?_]
    rintro rfl
    have := hq.length_le
    simp at this

/-- A name can be followed to the last when the directory that it is in is there. -/
theorem ancestors_concat {fs : Files} {p : FilePath} {x : String} :
    fs.ancestors (p ++ [x]) = .ok () ↔ fs.node p = some .dir := by
  rw [ancestors_eq_ok]
  constructor
  · exact fun h => h p (List.prefix_append p [x]) (by simp)
  · intro hp q hq hne
    by_cases he : q = p
    · rwa [he]
    · exact fs.node_of_prefix (by simp [hp]) ((List.prefix_concat_iff.mp hq).resolve_left hne) he

theorem ancestors_of_node {fs : Files} {p : FilePath} (hp : fs.node p ≠ none) : fs.ancestors p = .ok () :=
  ancestors_eq_ok.mpr fun _ hq hne => fs.node_of_prefix hp hq hne

theorem lookup_eq_ok {fs : Files} {p : FilePath} {n : Node} : fs.lookup p = .ok n ↔ fs.node p = some n := by
  constructor
  · intro h
    rw [lookup] at h
    rcases ha : fs.ancestors p with e | ⟨⟩
    · simp [ha, bind, Except.bind] at h
    · cases hp : fs.node p <;> simp_all [bind, Except.bind]
  · intro hp
    rw [lookup, ancestors_of_node (by simp [hp]), hp]
    rfl

theorem lookup_absent {fs : Files} {p : FilePath} {x : String} (h : fs.node p = some .dir)
    (hp : fs.node (p ++ [x]) = none) : fs.lookup (p ++ [x]) = .error .notFound := by
  rw [lookup, ancestors_concat.mpr h, hp]
  rfl

theorem lookup_concat (fs : Files) (p : FilePath) (x : String) : fs.lookup (p ++ [x]) = .error .notFound ↔
    fs.lookup p = .error .notFound ∨ fs.node p = some .dir ∧ fs.node (p ++ [x]) = none := by
  rw [lookup, lookup, ancestors_append, enter]
  rcases ha : fs.ancestors p with e | ⟨⟩
  · have hp : fs.node p ≠ some .dir := fun hp => by
      rw [ancestors_of_node (by rw [hp]; simp)] at ha
      cases ha
    simp [bind, Except.bind, hp]
  · rcases hp : fs.node p with _ | _ | _ | _ | _ <;> cases fs.node (p ++ [x]) <;> simp [bind, Except.bind]

/-- Nothing is found where nothing is, and nothing but directories is on the way. -/
theorem lookup_notFound {fs : Files} {p : FilePath} : fs.lookup p = .error .notFound ↔
    fs.node p = none ∧ ∀ q, q <+: p → q ≠ p → fs.node q = none ∨ fs.node q = some .dir := by
  induction p using List.reverseRecOn with
  | nil => simp [lookup, ancestors, fs.root, pure, Except.pure, bind, Except.bind]
  | append_singleton p x ih =>
    rw [lookup_concat, ih]
    constructor
    · rintro (⟨hp, hq⟩ | ⟨hp, hx⟩)
      · refine ⟨?_, fun q hpre hne => ?_⟩
        · by_contra hx
          rw [fs.parent p x hx] at hp
          cases hp
        · by_cases he : q = p
          · exact .inl (he ▸ hp)
          · exact hq q ((List.prefix_concat_iff.mp hpre).resolve_left hne) he
      · refine ⟨hx, fun q hpre hne => .inr ?_⟩
        by_cases he : q = p
        · rwa [he]
        · exact fs.node_of_prefix (by simp [hp]) ((List.prefix_concat_iff.mp hpre).resolve_left hne) he
    · rintro ⟨hx, hq⟩
      rcases hq p (List.prefix_append p [x]) (by simp) with hp | hp
      · refine .inl ⟨hp, fun q hpre hne => hq q (hpre.trans (List.prefix_append p [x])) ?_⟩
        rintro rfl
        have := hpre.length_le
        simp at this
      · exact .inr ⟨hp, hx⟩

theorem mem_children {fs : Files} {p : FilePath} {x : String} : x ∈ fs.children p ↔ fs.node (p ++ [x]) ≠ none := by
  rw [children, List.mem_dedup, List.mem_filterMap]
  constructor
  · rintro ⟨q, -, h⟩
    split_ifs at h with hq
    obtain ⟨rfl, hq⟩ := hq
    rwa [List.dropLast_append_getLast? x h]
  · exact fun h => ⟨p ++ [x], fs.mem_names _ h, by simp [h]⟩

/-! ### Changes -/

/-- The inodes below which the one of a node is. -/
def Node.bound (n : Node) : ℕ := n.opens.elim 0 (· + 1)

/-- Add a name to a directory, if it is not taken. -/
def add (fs : Files) (p : FilePath) (n : Node) : Files :=
  if h : p ≠ [] ∧ fs.node p = none ∧ fs.node p.dropLast = some .dir then
    { node := fun q => if q = p then some n else fs.node q
      names := p :: fs.names
      mem_names := fun q hq => by
        split_ifs at hq with he
        · exact List.mem_cons.mpr (.inl he)
        · exact List.mem_cons.mpr (.inr (fs.mem_names q hq))
      root := by rw [if_neg (Ne.symm h.1), fs.root]
      parent := fun q x hq => by
        split_ifs at hq with he
        · subst he
          simpa using h.2.2
        · have hd := fs.parent q x hq
          rwa [if_neg (by rintro rfl; rw [h.2.1] at hd; cases hd)]
      inode := fs.inode
      fresh := max fs.fresh (Node.bound n)
      opens_lt := fun q m i hq hi => by
        split_ifs at hq with he
        · obtain rfl := Option.some.inj hq
          exact lt_max_of_lt_right (by rw [Node.bound, hi]; exact Nat.lt_succ_self i)
        · exact lt_max_of_lt_left (fs.opens_lt q m i hq hi) }
  else fs

/-- Remove a name, if nothing is in it. -/
def remove (fs : Files) (p : FilePath) : Files :=
  if h : p ≠ [] ∧ fs.children p = [] then
    { node := fun q => if q = p then none else fs.node q
      names := fs.names
      mem_names := fun q hq => by
        split_ifs at hq with he
        · exact absurd rfl hq
        · exact fs.mem_names q hq
      root := by rw [if_neg (Ne.symm h.1), fs.root]
      parent := fun q x hq => by
        split_ifs at hq with he
        · exact absurd rfl hq
        · rw [if_neg, fs.parent q x hq]
          rintro rfl
          have := mem_children.mpr hq
          rw [h.2] at this
          cases this
      inode := fs.inode
      fresh := fs.fresh
      opens_lt := fun q n i hq hi => by
        split_ifs at hq with he
        exact fs.opens_lt q n i hq hi }
  else fs

/-- Move everything at and below one path to another, which is not below it and has nothing in it. -/
def move (fs : Files) (src dst : FilePath) : Files :=
  if h : (src ≠ [] ∧ dst ≠ []) ∧ ¬ src <+: dst ∧ fs.node dst.dropLast = some .dir then
    { node := fun q =>
        if dst <+: q then fs.node (src ++ q.drop dst.length) else if src <+: q then none else fs.node q
      names := fs.names.map (fun q => dst ++ q.drop src.length) ++ fs.names
      mem_names := fun q hq => by
        rw [List.mem_append]
        split_ifs at hq with hd hs
        · obtain ⟨r, rfl⟩ := hd
          rw [List.drop_left] at hq
          exact .inl (List.mem_map.mpr ⟨_, fs.mem_names _ hq, by rw [List.drop_left]⟩)
        · exact absurd rfl hq
        · exact .inr (fs.mem_names _ hq)
      root := by simp [h.1.1, h.1.2, fs.root]
      parent := fun q x hq => by
        split_ifs at hq with hd hs
        · rcases List.prefix_concat_iff.mp hd with he | hd
          · subst he
            have hlen : ¬ q ++ [x] <+: q := fun hp => by simpa using hp.length_le
            have hsrc : ¬ src <+: q := fun hp => h.2.1 (hp.trans (List.prefix_append q [x]))
            rw [if_neg hlen, if_neg hsrc]
            simpa using h.2.2
          · rw [if_pos hd]
            obtain ⟨r, rfl⟩ := hd
            rw [List.append_assoc, List.drop_left, ← List.append_assoc] at hq
            rw [List.drop_left]
            exact fs.parent _ x hq
        · exact absurd rfl hq
        · rw [if_neg fun hp => hd (hp.trans (List.prefix_append q [x])),
            if_neg fun hp => hs (hp.trans (List.prefix_append q [x]))]
          exact fs.parent q x hq
      inode := fs.inode
      fresh := fs.fresh
      opens_lt := fun q n i hq hi => by
        split_ifs at hq with hd hs
        all_goals exact fs.opens_lt _ n i hq hi }
  else fs

/-- Change the contents of a file. -/
def setInode (fs : Files) (i : ℕ) (d : Inode) : Files where
  __ := fs
  inode := Function.update fs.inode i d

section changes

variable {fs : Files} {p q src dst : FilePath} {x : String} {n : Node} {i : ℕ} {d : Inode}

theorem node_add (hp : fs.node (p ++ [x]) = none) (hd : fs.node p = some .dir) :
    (fs.add (p ++ [x]) n).node q = if q = p ++ [x] then some n else fs.node q := by
  rw [add, dif_pos ⟨by simp, hp, by simpa using hd⟩]

theorem node_add_cases : (fs.add p n).node q = fs.node q ∨
    q = p ∧ fs.node q = none ∧ (fs.add p n).node q = some n := by
  rw [add]
  split_ifs with h
  · by_cases hq : q = p
    · exact .inr ⟨hq, hq ▸ h.2.1, if_pos hq⟩
    · exact .inl (if_neg hq)
  · exact .inl rfl

@[simp] theorem inode_add : (fs.add p n).inode = fs.inode := by
  rw [add]; split_ifs <;> rfl

theorem node_remove (hp : p ≠ []) (hc : fs.children p = []) :
    (fs.remove p).node q = if q = p then none else fs.node q := by
  rw [remove, dif_pos ⟨hp, hc⟩]

theorem node_remove_cases : (fs.remove p).node q = fs.node q ∨ q = p ∧ (fs.remove p).node q = none := by
  rw [remove]
  split_ifs with h
  · by_cases hq : q = p
    · exact .inr ⟨hq, if_pos hq⟩
    · exact .inl (if_neg hq)
  · exact .inl rfl

@[simp] theorem inode_remove : (fs.remove p).inode = fs.inode := by
  rw [remove]; split_ifs <;> rfl

theorem node_move (hs : src ≠ []) (hp : ¬ src <+: p ++ [x]) (hd : fs.node p = some .dir) :
    (fs.move src (p ++ [x])).node q =
      if p ++ [x] <+: q then fs.node (src ++ q.drop (p ++ [x]).length)
      else if src <+: q then none else fs.node q := by
  rw [move, dif_pos ⟨⟨hs, by simp⟩, hp, by simpa using hd⟩]

@[simp] theorem inode_move : (fs.move src dst).inode = fs.inode := by
  rw [move]; split_ifs <;> rfl

@[simp] theorem node_setInode : (fs.setInode i d).node = fs.node := rfl

@[simp] theorem fresh_setInode : (fs.setInode i d).fresh = fs.fresh := rfl

theorem inode_setInode : (fs.setInode i d).inode = Function.update fs.inode i d := rfl

end changes

/-! ### Calls -/

/-- What a path stands for, links not followed. -/
def metadata (p : FilePath) (fs : Files) : Outcome Node := (fs.lookup p, fs)

/-- Open a directory. -/
def openDir (p : FilePath) (fs : Files) : Outcome Unit :=
  (do
    let n ← fs.lookup p
    if n = .dir then .ok () else .error .notADirectory, fs)

/-- List a directory: the names in it and what they stand for. -/
def entries (p : FilePath) (fs : Files) : Outcome (List (String × Node)) :=
  (do
    let n ← fs.lookup p
    if n = .dir then .ok ((fs.children p).filterMap fun x => (fs.node (p ++ [x])).map (x, ·))
    else .error .notADirectory, fs)

/-- The file that is opened at a path. -/
def opened (fs : Files) (p : FilePath) : Option ℕ := (fs.node p).bind Node.opens

/-- Open a file. -/
def openFile (p : FilePath) (fs : Files) : Outcome ℕ :=
  (do
    match ← fs.lookup p with
    | .file i => .ok i
    | .dir => .error .isADirectory
    | .link (some i) => .ok i
    | .link none | .special => .error .notPermitted, fs)

/-- The size and the time of modification of an open file. -/
def stat (i : ℕ) (fs : Files) : Outcome (ℕ × ℕ) := (.ok ((fs.inode i).bytes.length, (fs.inode i).modified), fs)

/-- Read some bytes of an open file. -/
def readExact (i offset len : ℕ) (fs : Files) : Outcome Bytes :=
  let bytes := ((fs.inode i).bytes.drop offset).take len
  (if bytes.length = len then .ok bytes else .error .unexpectedEof, fs)

/-- Read a whole file. -/
def read (p : FilePath) (fs : Files) : Outcome Bytes :=
  match fs.openFile p with
  | (.ok i, _) => (.ok (fs.inode i).bytes, fs)
  | (.error e, _) => (.error e, fs)

/-- Append a byte to an open file. -/
def append (i : ℕ) (b : UInt8) (fs : Files) : Outcome Unit :=
  let d := fs.inode i
  (.ok (), fs.setInode i ⟨d.bytes ++ [b], d.modified + 1⟩)

/-- Make a name where there is none. -/
def place (p : FilePath) (n : Node) (fs : Files) : Outcome Unit :=
  match fs.ancestors p with
  | .error e => (.error e, fs)
  | .ok () => if fs.node p = none then (.ok (), fs.add p n) else (.error .alreadyExists, fs)

/-- Make a directory. -/
def createDir (p : FilePath) (fs : Files) : Outcome Unit := fs.place p .dir

/-- Make a file and open it. -/
def createNew (p : FilePath) (fs : Files) : Outcome ℕ :=
  match (fs.setInode fs.fresh ⟨[], 0⟩).place p (.file fs.fresh) with
  | (.ok (), fs') => (.ok fs.fresh, fs')
  | (.error e, _) => (.error e, fs)

/-- Give what is no directory another name, where there is none. A symbolic link is not followed. -/
def link (src dst : FilePath) (fs : Files) : Outcome Unit :=
  match fs.lookup src with
  | .error e => (.error e, fs)
  | .ok .dir => (.error .notPermitted, fs)
  | .ok n => fs.place dst n

/-- Remove a name that is not a directory's. -/
def removeFile (p : FilePath) (fs : Files) : Outcome Unit :=
  match fs.lookup p with
  | .error e => (.error e, fs)
  | .ok .dir => (.error .isADirectory, fs)
  | .ok _ => (.ok (), fs.remove p)

/-- Remove an empty directory. -/
def removeDir (p : FilePath) (fs : Files) : Outcome Unit :=
  match fs.lookup p with
  | .error e => (.error e, fs)
  | .ok .dir => if fs.children p = [] then (.ok (), fs.remove p) else (.error .notEmpty, fs)
  | .ok _ => (.error .notADirectory, fs)

/-- Move a file or a directory; a file, or an empty directory, that is in the way is overwritten. -/
def rename (src dst : FilePath) (fs : Files) : Outcome Unit :=
  match fs.lookup src, fs.ancestors dst with
  | .error e, _ => (.error e, fs)
  | _, .error e => (.error e, fs)
  | .ok n, .ok () =>
    if src <+: dst ∨ dst = [] then (.error .notPermitted, fs)
    else match fs.node dst with
      | none => (.ok (), fs.move src dst)
      | some .dir =>
        if n ≠ .dir then (.error .isADirectory, fs)
        else if fs.children dst = [] then (.ok (), fs.move src dst)
        else (.error .notEmpty, fs)
      | some m =>
        if n = .dir then (.error .notADirectory, fs)
        else if m = n then (.ok (), fs)
        else (.ok (), fs.move src dst)

/-! ### When a call succeeds -/

section calls

variable {fs : Files} {p q src dst : FilePath} {x : String} {i : ℕ} {n : Node}

theorem place_eq (hd : fs.node p = some .dir) (hp : fs.node (p ++ [x]) = none) :
    fs.place (p ++ [x]) n = (.ok (), fs.add (p ++ [x]) n) := by
  rw [place, ancestors_concat.mpr hd]
  exact if_pos hp

theorem createDir_eq (hd : fs.node p = some .dir) (hp : fs.node (p ++ [x]) = none) :
    fs.createDir (p ++ [x]) = (.ok (), fs.add (p ++ [x]) .dir) := place_eq hd hp

theorem createNew_eq (hd : fs.node p = some .dir) (hp : fs.node (p ++ [x]) = none) :
    fs.createNew (p ++ [x]) =
      (.ok fs.fresh, (fs.setInode fs.fresh ⟨[], 0⟩).add (p ++ [x]) (.file fs.fresh)) := by
  rw [createNew, @place_eq (fs.setInode fs.fresh ⟨[], 0⟩) _ _ _ hd hp]

theorem openFile_eq (hp : fs.node p = some (.file i)) : fs.openFile p = (.ok i, fs) := by
  rw [openFile, lookup_eq_ok.mpr hp]
  rfl

theorem opened_eq_some : fs.opened p = some i ↔ ∃ n, fs.node p = some n ∧ n.opens = some i := Option.bind_eq_some_iff

theorem opened_file (hp : fs.node p = some (.file i)) : fs.opened p = some i := opened_eq_some.mpr ⟨_, hp, rfl⟩

theorem opened_lt_fresh (h : fs.opened p = some i) : i < fs.fresh := by
  obtain ⟨n, hn, hi⟩ := opened_eq_some.mp h
  exact fs.opens_lt p n i hn hi

theorem opened_congr {fs' : Files} (h : fs'.node p = fs.node p) : fs'.opened p = fs.opened p := by
  rw [opened, h, opened]

/-- A file is opened where there is one, or a link to one. -/
theorem openFile_eq_ok : (fs.openFile p).1 = .ok i ↔ fs.opened p = some i := by
  rw [openFile, opened_eq_some]
  constructor
  · intro h
    rcases hl : fs.lookup p with e | n
    · rw [hl] at h
      cases h
    · rw [hl] at h
      refine ⟨n, lookup_eq_ok.mp hl, ?_⟩
      rcases n with j | _ | (_ | j) | _ <;> cases h <;> rfl
  · rintro ⟨n, hn, hi⟩
    rw [lookup_eq_ok.mpr hn]
    rcases n with j | _ | (_ | j) | _ <;> cases hi <;> rfl

theorem openDir_eq (hp : fs.node p = some .dir) : fs.openDir p = (.ok (), fs) := by
  rw [openDir, lookup_eq_ok.mpr hp]
  rfl

theorem openDir_ok (h : (fs.openDir p).1 = .ok ()) : fs.node p = some .dir := by
  rw [openDir] at h
  rcases hl : fs.lookup p with e | n
  · rw [hl] at h
    cases h
  · rw [hl] at h
    by_cases hn : n = .dir
    · rw [← hn]
      exact lookup_eq_ok.mp hl
    · exact absurd h (by simp [bind, Except.bind, hn])

theorem openDir_notFound (h : (fs.openDir p).1 = .error .notFound) : fs.lookup p = .error .notFound := by
  rw [openDir] at h
  rcases hl : fs.lookup p with e | n
  · rw [hl] at h
    obtain rfl : e = .notFound := Except.error.inj h
    rfl
  · rw [hl] at h
    by_cases hn : n = .dir
    · exact absurd h (by simp [bind, Except.bind, hn])
    · exact absurd h (by simp [bind, Except.bind, hn])

theorem read_eq (hp : fs.node p = some (.file i)) : fs.read p = (.ok (fs.inode i).bytes, fs) := by
  rw [read, openFile_eq hp]

theorem read_snd (p : FilePath) (fs : Files) : (fs.read p).2 = fs := by
  rw [read]
  split <;> rfl

theorem read_notFound (h : (fs.read p).1 = .error .notFound) : fs.lookup p = .error .notFound := by
  rw [read, openFile] at h
  rcases hl : fs.lookup p with e | n
  · rw [hl] at h
    obtain rfl : e = .notFound := Except.error.inj h
    rfl
  · rw [hl] at h
    rcases n with j | _ | (_ | j) | _ <;> cases h

theorem read_ok {bytes : Bytes} (h : (fs.read p).1 = .ok bytes) :
    ∃ i, fs.opened p = some i ∧ (fs.inode i).bytes = bytes := by
  rw [read] at h
  rcases ho : fs.openFile p with ⟨_ | i, fs'⟩
  · rw [ho] at h
    cases h
  · rw [ho] at h
    exact ⟨i, openFile_eq_ok.mp (congrArg Prod.fst ho), Except.ok.inj h⟩

theorem read_opened (h : fs.opened p = some i) : fs.read p = (.ok (fs.inode i).bytes, fs) := by
  rw [read, show fs.openFile p = (.ok i, fs) from Prod.ext (openFile_eq_ok.mpr h) rfl]

theorem link_eq (hsrc : fs.node src = some n) (hn : n ≠ .dir) (hd : fs.node p = some .dir)
    (hp : fs.node (p ++ [x]) = none) : fs.link src (p ++ [x]) = (.ok (), fs.add (p ++ [x]) n) := by
  rw [link, lookup_eq_ok.mpr hsrc]
  cases n with
  | dir => exact absurd rfl hn
  | _ => exact place_eq hd hp

end calls

/-! ### What a call leaves alone -/

section frames

variable {fs : Files} {p q src dst : FilePath} {n : Node}

/-- At most the name `p` is new. -/
def Adds (p : FilePath) (fs fs' : Files) : Prop :=
  (∀ q, fs'.node q = fs.node q ∨ q = p ∧ fs.node q = none) ∧ ∀ i < fs.fresh, fs'.inode i = fs.inode i

theorem Adds.refl : Adds p fs fs := ⟨fun _ => .inl rfl, fun _ _ => rfl⟩

theorem adds_add : Adds p fs (fs.add p n) :=
  ⟨fun _ => node_add_cases.imp id fun h => ⟨h.1, h.2.1⟩, fun _ _ => by rw [inode_add]⟩

theorem adds_place : Adds p fs (fs.place p n).2 := by
  rw [place]
  split
  · exact .refl
  · split_ifs
    · exact adds_add
    · exact .refl

theorem inode_place : (fs.place p n).2.inode = fs.inode := by
  rw [place]
  split
  · rfl
  · split_ifs
    · exact inode_add
    · rfl

theorem adds_createDir : Adds p fs (fs.createDir p).2 := adds_place

theorem node_createDir : (fs.createDir p).2.node p = fs.node p ∨ (fs.createDir p).2.node p = some .dir := by
  rw [createDir, place]
  split
  · exact .inl rfl
  · split_ifs
    · exact node_add_cases.imp id fun h => h.2.2
    · exact .inl rfl

theorem adds_createNew : Adds p fs (fs.createNew p).2 := by
  rw [createNew]
  split
  · rename_i fs' h
    obtain ⟨hnode, hinode⟩ := @adds_place (fs.setInode fs.fresh ⟨[], 0⟩) p (.file fs.fresh)
    rw [h] at hnode hinode
    refine ⟨hnode, fun i hi => (hinode i hi).trans ?_⟩
    rw [inode_setInode, Function.update_of_ne hi.ne]
  · exact .refl

theorem place_ok (h : (fs.place p n).1 = .ok ()) (hp : p ≠ []) : (fs.place p n).2.node p = some n := by
  obtain ⟨q, x, rfl⟩ : ∃ q x, p = q ++ [x] := ⟨p.dropLast, p.getLast hp, (List.dropLast_append_getLast hp).symm⟩
  rw [place] at h ⊢
  split at h
  · cases h
  · rename_i ha
    split_ifs at h ⊢ with hn
    rw [node_add hn (ancestors_concat.mp ha), if_pos rfl]

theorem place_error {e : IoError} (h : (fs.place p n).1 = .error e) : (fs.place p n).2 = fs := by
  rw [place] at h ⊢
  split at h
  · rfl
  · split_ifs at h ⊢
    rfl

/-- A directory is made only where nothing was. -/
theorem createDir_ok (h : (fs.createDir p).1 = .ok ()) : fs.node p = none := by
  rw [createDir, place] at h
  split at h
  · cases h
  · by_contra hn
    rw [if_neg hn] at h
    cases h

/-- A new file has a new inode. -/
theorem createNew_ok {i : ℕ} (h : (fs.createNew p).1 = .ok i) :
    i = fs.fresh ∧ (fs.createNew p).2.node p = some (.file i) := by
  have hp : p ≠ [] := by
    rintro rfl
    rw [createNew, place, ancestors_of_node (by simp [root]), if_neg (by simp [root])] at h
    cases h
  have hok := @place_ok (fs.setInode fs.fresh ⟨[], 0⟩) p (.file fs.fresh)
  rw [createNew] at h ⊢
  split at h
  · rename_i fs' he
    obtain rfl : fs.fresh = i := by simpa using h
    rw [he] at hok
    exact ⟨rfl, hok rfl hp⟩
  · cases h

/-- A new file is empty. -/
theorem createNew_bytes {i : ℕ} (h : (fs.createNew p).1 = .ok i) : ((fs.createNew p).2.inode fs.fresh).bytes = [] := by
  have hadds := @inode_place (fs.setInode fs.fresh ⟨[], 0⟩) p (.file fs.fresh)
  rw [createNew] at h ⊢
  split at h
  · rename_i fs' he
    rw [he] at hadds
    change (fs'.inode fs.fresh).bytes = []
    rw [hadds, inode_setInode, Function.update_self]
  · cases h

theorem createNew_error {e : IoError} (h : (fs.createNew p).1 = .error e) : (fs.createNew p).2 = fs := by
  rw [createNew] at h ⊢
  split at h
  · cases h
  · rfl

theorem adds_link : Adds dst fs (fs.link src dst).2 := by
  rw [link]
  split
  · exact .refl
  · exact .refl
  · exact adds_place

/-- A new name is that of what was linked. -/
theorem node_link : (fs.link src dst).2.node dst = fs.node dst ∨
    ∃ n, n ≠ .dir ∧ fs.node src = some n ∧ (fs.link src dst).2.node dst = some n := by
  rw [link]
  split
  · exact .inl rfl
  · exact .inl rfl
  · rename_i n hn hl
    rw [place]
    split
    · exact .inl rfl
    · split_ifs
      · exact node_add_cases.imp id fun h => ⟨n, hn, lookup_eq_ok.mp hl, h.2.2⟩
      · exact .inl rfl

theorem removeFile_ne (h : q ≠ p) : (fs.removeFile p).2.node q = fs.node q := by
  rw [removeFile]
  split
  · rfl
  · rfl
  · exact node_remove_cases.resolve_right fun hq => h hq.1

/-- Only an empty directory is removed. -/
theorem node_removeDir : (fs.removeDir p).2.node q = fs.node q ∨
    q = p ∧ fs.node p = some .dir ∧ fs.children p = [] ∧ (fs.removeDir p).2.node p = none := by
  rw [removeDir]
  split
  · exact .inl rfl
  · rename_i h
    split_ifs with hc
    · refine node_remove_cases.imp id fun hq => ?_
      rw [← hq.1]
      exact ⟨rfl, hq.1 ▸ lookup_eq_ok.mp h, hq.1 ▸ hc, hq.1 ▸ hq.2⟩
    · exact .inl rfl
  · exact .inl rfl

theorem removeDir_error {e : IoError} (h : (fs.removeDir p).1 = .error e) : (fs.removeDir p).2 = fs := by
  rw [removeDir] at h ⊢
  split at h
  · rfl
  · split_ifs at h ⊢
    rfl
  · rfl

theorem removeDir_ok (h : (fs.removeDir p).1 = .ok ()) (hp : p ≠ []) :
    fs.node p = some .dir ∧ ∀ q, (fs.removeDir p).2.node q = if q = p then none else fs.node q := by
  rw [removeDir] at h ⊢
  split at h
  · cases h
  · rename_i hl
    split_ifs at h ⊢ with hc
    exact ⟨lookup_eq_ok.mp hl, fun q => node_remove hp hc⟩
  · cases h

theorem inode_removeFile : (fs.removeFile p).2.inode = fs.inode := by
  rw [removeFile]
  split
  · rfl
  · rfl
  · exact inode_remove

theorem inode_removeDir : (fs.removeDir p).2.inode = fs.inode := by
  rw [removeDir]
  split
  · rfl
  · split_ifs
    · exact inode_remove
    · rfl
  · rfl

/-- Renaming moves, or does nothing. -/
theorem rename_cases (src dst : FilePath) (fs : Files) :
    (fs.rename src dst).2 = fs ∨ (fs.rename src dst).2 = fs.move src dst ∧ ¬ src <+: dst ∧ fs.ancestors dst = .ok () := by
  rw [rename]
  split
  · exact .inl rfl
  · exact .inl rfl
  · rename_i ha
    by_cases h : src <+: dst ∨ dst = []
    · rw [if_pos h]
      exact .inl rfl
    · rw [if_neg h]
      have hmoved : fs.move src dst = fs.move src dst ∧ ¬ src <+: dst ∧ fs.ancestors dst = .ok () :=
        ⟨rfl, fun hs => h (.inl hs), ha⟩
      split
      · exact .inr hmoved
      · split_ifs
        · exact .inl rfl
        · exact .inr hmoved
        · exact .inl rfl
      · split_ifs
        · exact .inl rfl
        · exact .inl rfl
        · exact .inr hmoved

/-- No symbolic link is on the way to a path. -/
def Direct (p : FilePath) (fs : Files) : Prop := ∀ q, q <+: p → q ≠ p → ∀ leads, fs.node q ≠ some (.link leads)

/-- A tree without symbolic links has none on the way. -/
theorem direct_of_names (h : ∀ q ∈ fs.names, (fs.node q).any Node.isLink = false) (p : FilePath) : Direct p fs := by
  intro q _ _ leads hq
  have := h q (fs.mem_names q (by simp [hq]))
  rw [hq] at this
  cases this

/-- The path, and the file at it, stay as they are. -/
def Leaves (p : FilePath) (fs fs' : Files) : Prop :=
  (∀ q, q <+: p → fs'.node q = fs.node q) ∧ ∀ i, fs.node p = some (.file i) → fs'.inode i = fs.inode i

theorem Leaves.trans {fs' fs'' : Files} (h : Leaves p fs fs') (h' : Leaves p fs' fs'') : Leaves p fs fs'' :=
  ⟨fun q hq => (h'.1 q hq).trans (h.1 q hq),
    fun i hi => (h'.2 i ((h.1 p List.prefix_rfl).trans hi)).trans (h.2 i hi)⟩

theorem Leaves.node {fs' : Files} (h : Leaves p fs fs') : fs'.node p = fs.node p := h.1 p List.prefix_rfl

theorem Leaves.lookup {fs' : Files} (h : Leaves p fs fs') : fs'.lookup p = fs.lookup p := by
  rw [Files.lookup, Files.lookup, ancestors_congr fun q hq _ => h.1 q hq, h.node]

theorem Adds.leaves {fs' : Files} (h : Adds q fs fs') (hq : ¬ q <+: p) : Leaves p fs fs' :=
  ⟨fun r hr => (h.1 r).resolve_right fun he => hq (he.1 ▸ hr), fun i hi => h.2 i (fs.lt_fresh _ i hi)⟩

theorem leaves_setInode {i : ℕ} {d : Inode} (h : fs.node p ≠ some (.file i)) : Leaves p fs (fs.setInode i d) :=
  ⟨fun _ _ => rfl, fun j hj => by
    rw [inode_setInode, Function.update_of_ne]
    rintro rfl
    exact h hj⟩

theorem leaves_removeFile (hq : ¬ q <+: p) : Leaves p fs (fs.removeFile q).2 :=
  ⟨fun r hr => removeFile_ne (by rintro rfl; exact hq hr), fun i _ => by rw [inode_removeFile]⟩

end frames

end Files

/-- States that have a file system in them. -/
class HasFiles (σ : Type) where
  /-- The file system. -/
  files : σ → Files
  /-- Change it. -/
  setFiles : Files → σ → σ
  files_setFiles (f : Files) (s : σ) : files (setFiles f s) = f
  setFiles_files (s : σ) : setFiles (files s) s = s
  setFiles_setFiles (f f' : Files) (s : σ) : setFiles f (setFiles f' s) = setFiles f s

attribute [simp] HasFiles.files_setFiles HasFiles.setFiles_files HasFiles.setFiles_setFiles

instance : HasFiles Files where
  files := id
  setFiles f _ := f
  files_setFiles _ _ := rfl
  setFiles_files _ := rfl
  setFiles_setFiles _ _ _ := rfl

end Everywhere.Library

