import Everywhere.Device.Configurations
import Everywhere.Share.Checkpoint
import Everywhere.Storage.Attempt

/-!
# Generations of an index

An index that is lost or damaged is replaced by the one of a checkpoint, under a new generation: the configuration of the share
and its index name the same one, or the share does not open. The two files cannot be replaced in one step. The recovery writes
down what it is going to do, moves the old index aside with all that belongs to it, links the prepared index to its name and
replaces the configuration; whoever opens the share next brings what was stopped to its end.

The model is the directory of a share: the files of the index, the prepared copies and the archives under their nonces, the
configuration and the intent. A copy is torn until it is complete. The objects of the checkpoint are copied before, and are left
out here. The work that is done with a share between recoveries is any that leaves it with one generation (`Used`).

* `Sound` — the share has one generation, or an intent whose recovery can go on.
* `triple_finish`, `triple_prepare` — what holds wherever a recovery is stopped.
* `index_recovery` — **from every state that recoveries may leave**, however many of them were stopped and wherever, opening
  the share ends in one complete generation: the old one if no intent was published, and the one of the intent if it was.
* `generations_kept` — no file of an index is lost or changed on the way.
* `finish_slot` — the end of a recovery is what the registry of the device takes it for.
-/

namespace Everywhere

open Library

/-- The database of an index. -/
structure Database where
  /-- The tables. -/
  tables : Snapshot
  /-- A recovery has not been reconciled yet. -/
  recoveryPending : Bool

/-- What a recovery is going to do. -/
structure Recovery where
  /-- The format. -/
  format : ℕ
  /-- Its name. -/
  nonce : String
  /-- The hash of the prepared index. -/
  databaseHash : String
  /-- The configuration. -/
  config : Registration

/-- The files of an index. -/
inductive IndexFile where
  /-- The log. -/
  | wal
  /-- Its memory. -/
  | shm
  /-- The rollback journal. -/
  | journal
  /-- The database. -/
  | index
  deriving DecidableEq

/-- The directory of a share. -/
structure IndexDir where
  /-- The files. -/
  file : ℕ → Document Database
  /-- The next file. -/
  fresh : ℕ
  /-- The index. -/
  live : IndexFile → Option ℕ
  /-- What was moved aside. -/
  archive : String → Option (IndexFile → Option ℕ)
  /-- The prepared indexes. -/
  candidate : String → Option ℕ
  /-- What is found where the configuration should be. -/
  config : Option Stored
  /-- Configurations that are being written. -/
  scratch : List (Document Registration)
  /-- Intents that are being written. -/
  staging : String → Option (Document Recovery)
  /-- The intent. -/
  intent : Option (Document Recovery)

namespace IndexDir

/-- A program on the directory of a share. -/
abbrev Io (α : Type) := Fallible Error IndexDir α

/-- A file in an archive. -/
def archived (s : IndexDir) (nonce : String) (n : IndexFile) : Option ℕ := (s.archive nonce).bind fun a => a n

section

variable (P : Platform) (image : Database → Bytes) (w : World) (id : String)

/-- The hash of a file. -/
def digest : Document Database → Option String
  | .torn => none
  | .whole d => some (P.blake3 (image d))

/-- The hash of what is at a name. -/
def digestAt (name : IndexDir → Option ℕ) : Io (Option String) :=
  Fallible.act fun s => (((name s).elim (.error (.io .notFound)) fun i => .ok (digest P image (s.file i))), s)

/-- Read a configuration. -/
def configOf : Option Stored → Result Registration
  | none => .error (.io .notFound)
  | some .other => .error (.message "unsafe share configuration")
  | some (.file bytes) => Registration.parse bytes

/-- The registry of the device reads it in the same way. -/
theorem configOf_slot (slot : Slot) : configOf (slot.config.map .file) = slot.readConfig := by
  rw [Slot.readConfig]
  cases slot.config <;> rfl

/-- Read the configuration. -/
def readConfig : Io Registration := Fallible.act fun s => (configOf s.config, s)

/-! ### Finishing -/

/-- Move a file of the old index aside, if it is there. -/
def moveFile (nonce : String) (n : IndexFile) : Io Unit := do
  if ← Fallible.look fun s => (s.live n).isSome then do
    let taken ← Fallible.look fun s => (s.archived nonce n).isSome
    ensure (taken = false) "index recovery found two different generations; preserving both"
    Fallible.act fun s => match s.live n, s.archive nonce with
      | some i, some a => (.ok (), { s with
          live := Function.update s.live n none
          archive := Function.update s.archive nonce (some (Function.update a n (some i))) })
      | _, _ => (.error (.io .notFound), s)
  else pure ()

/-- Move the old index aside. -/
def moveAside (nonce : String) : List IndexFile → Io Unit
  | [] => pure ()
  | n :: rest => do
    moveFile nonce n
    moveAside nonce rest

/-- Link the prepared index to its name. -/
def linkIndex (nonce : String) : Io Unit :=
  Fallible.act fun s => match s.candidate nonce, s.live .index with
    | none, _ => (.error (.io .notFound), s)
    | some _, some _ => (.error (.io .alreadyExists), s)
    | some k, none => (.ok (), { s with live := Function.update s.live .index (some k) })

/-- Remove the name of a prepared index. -/
def removeCandidate (nonce : String) : Io Unit :=
  Fallible.act fun s => match s.candidate nonce with
    | none => (.error (.io .notFound), s)
    | some _ => (.ok (), { s with candidate := Function.update s.candidate nonce none })

/-- Give the prepared index its name, if that has not been done. -/
def replaceIndex (nonce : String) : Io Unit := do
  if ← Fallible.look fun s => (s.live .index).isSome && (s.candidate nonce == s.live .index) then pure ()
  else do
    moveAside nonce [.wal, .shm, .journal, .index]
    linkIndex nonce

/-- Publish the prepared index, if that has not been done. -/
def publishIndex (intent : Recovery) : Io Unit := do
  if ← Fallible.look fun s => (s.candidate intent.nonce).isSome then do
    let prepared ← digestAt P image fun s => s.candidate intent.nonce
    ensure (prepared = some intent.databaseHash) "prepared recovery index is corrupt"
    replaceIndex intent.nonce
    removeCandidate intent.nonce
  else pure ()

/-- Replace the configuration. -/
def replaceConfig (config : Registration) : Io Unit := do
  Fallible.act fun s => (.ok (), { s with scratch := .torn :: s.scratch })
  Fallible.act fun s => (.ok (), { s with scratch := .whole config :: s.scratch.tail })
  Fallible.act fun s => (.ok (), { s with scratch := s.scratch.tail, config := some (.file config.text) })

/-- Remove the intent. -/
def removeRecovery : Io Unit :=
  Fallible.act fun s => match s.intent with
    | none => (.error (.io .notFound), s)
    | some _ => (.ok (), { s with intent := none })

/-- Bring a recovery to its end. -/
def finish (intent : Recovery) : Io Unit := do
  ensure (intent.format = 1) "unsupported state recovery intent"
  validPeer intent.nonce
  validPeer intent.databaseHash
  validPeer intent.config.epoch
  w.binding P id intent.config
  let current ← readConfig
  ensure (current.id = intent.config.id ∧ current.root = intent.config.root ∧ current.identity = intent.config.identity ∧
    current.marker = intent.config.marker ∧ current.mode = intent.config.mode ∧ current.peers = intent.config.peers)
    "share configuration changed during index recovery; preserving both states"
  Fallible.act fun s => (if (s.archive intent.nonce).isSome then .ok () else .error (.io .notFound), s)
  publishIndex P image intent
  let published ← digestAt P image fun s => s.live .index
  ensure (published = some intent.databaseHash) "published recovery index differs from the intent"
  replaceConfig intent.config
  removeRecovery

/-- Bring a recovery to its end, if there is one. -/
def resume : Io Unit := do
  if ← Fallible.look fun s => s.intent.isSome then do
    let intent ← Fallible.act fun s => (Document.read s.intent, s)
    finish P image w id intent
  else pure ()

/-! ### Preparing -/

/-- Publish an intent. -/
def publishIntent (intent : Recovery) : Io Unit := do
  Fallible.act fun s => match s.staging intent.nonce with
    | some _ => (.error (.io .alreadyExists), s)
    | none => (.ok (), { s with staging := Function.update s.staging intent.nonce (some .torn) })
  Fallible.act fun s => (.ok (), { s with staging := Function.update s.staging intent.nonce (some (.whole intent)) })
  Fallible.act fun s => match s.intent with
    | some _ => (.error (.io .alreadyExists), s)
    | none => (.ok (), { s with intent := s.staging intent.nonce })
  Fallible.act fun s => (.ok (), { s with staging := Function.update s.staging intent.nonce none })

/-- Copy the database of a checkpoint. -/
def copyDatabase (nonce : String) (database : Database) : Io ℕ := do
  let k ← Fallible.act fun s => match s.candidate nonce with
    | some _ => (.error (.io .alreadyExists), s)
    | none => (.ok s.fresh, { s with
        file := Function.update s.file s.fresh .torn
        fresh := s.fresh + 1
        candidate := Function.update s.candidate nonce (some s.fresh) })
  Fallible.act fun s => (.ok (), { s with file := Function.update s.file k (.whole database) })
  let copied ← digestAt P image fun s => s.candidate nonce
  ensure (copied = some (P.blake3 (image database))) "checkpoint content changed or is corrupt"
  pure k

/-- The new generation of a database. -/
def stamp (epoch : String) (config : Registration) (d : Database) : Database :=
  ⟨{ d.tables with epoch }, decide (config.mode ≠ .sendOnly)⟩

/-- Prepare the index of a checkpoint, whose configuration and database are given. -/
def prepare (checkpoint : Result (Registration × Database)) (nonce epoch : String) : Io Recovery := do
  let config ← readConfig
  w.binding P id config
  let manifest ← checkpoint
  ensure (manifest.1.id = config.id ∧ manifest.1.identity = config.identity ∧ manifest.1.root = config.root ∧
    manifest.1.marker = config.marker) "checkpoint belongs to another device, folder or root"
  Fallible.act fun s => match s.archive nonce with
    | some _ => (.error (.io .alreadyExists), s)
    | none => (.ok (), { s with archive := Function.update s.archive nonce (some fun _ => none) })
  let k ← copyDatabase P image nonce manifest.2
  Fallible.act fun s => (.ok (), { s with file := Function.update s.file k (.whole (stamp epoch config manifest.2)) })
  Snapshot.validate P (stamp epoch config manifest.2).tables epoch
  let intent : Recovery := ⟨1, nonce, P.blake3 (image (stamp epoch config manifest.2)), { config with epoch }⟩
  w.binding P id intent.config
  publishIntent intent
  pure intent

/-- Recover the index from a checkpoint. -/
def recover (checkpoint : Result (Registration × Database)) (nonce epoch : String) : Io Unit := do
  resume P image w id
  let intent ← prepare P image w id checkpoint nonce epoch
  finish P image w id intent

/-- The check that the folder of a share is there. -/
def checkRoot (w : World) (config : Registration) : Result Unit := do
  ensure (w.isDir config.rootPath = true) "share root must be a directory"
  match w.marker config.rootPath with
  | none => .error (.io .notFound)
  | some marker => ensure (marker = utf8 config.marker) "share mount identity changed; synchronization paused"

/-- Look whether a database is whole. -/
def quickCheck : Document Database → Result Database
  | .torn => .error (.message "share index is corrupt; synchronization paused")
  | .whole d => .ok d

/-- Open the share. What becomes of the recovery of its folder is given. -/
def openIndex (folder : Result Unit) : Io Registration := do
  resume P image w id
  let config ← readConfig
  ensure (config.id = id) "share identifier mismatch"
  let der ← w.readIdentity.1
  ensure (config.identity = P.blake3 der) "share device identity changed"
  let i ← Fallible.act fun s => ((s.live .index).elim (.error (.io .notFound)) .ok, s)
  let database ← Fallible.act fun s => (quickCheck (s.file i), s)
  ensure (database.tables.epoch = config.epoch) "share index epoch mismatch"
  checkRoot w config
  folder
  pure config

end

/-! ### What holds all along -/

section

variable {P : Platform} {image : Database → Bytes} {w : World} {id : String} {s s' : IndexDir} {I : Recovery} {i k : ℕ}

/-- A file belongs to an index, or did. -/
def Held (s : IndexDir) (i : ℕ) : Prop := (∃ n, s.live n = some i) ∨ ∃ nonce n, s.archived nonce n = some i

/-- No file of an index is lost or changed. -/
def Holding (s s' : IndexDir) : Prop := ∀ i, s.Held i → s'.Held i ∧ s'.file i = s.file i

/-- The configuration file holds the configuration, which is read. -/
def Registered (s : IndexDir) (c : Registration) : Prop :=
  s.config = some (.file c.text) ∧ Registration.parse c.text = .ok c

theorem Registered.configOf {c : Registration} (h : s.Registered c) : configOf s.config = .ok c := by
  rw [h.1, IndexDir.configOf, h.2]

theorem Registered.unique {c c' : Registration} (h : s.Registered c) (h' : s.Registered c') : c = c' :=
  Except.ok.inj (h.configOf.symm.trans h'.configOf)

/-- The share has one generation. -/
structure Settled (s : IndexDir) : Prop where
  /-- No recovery is going on. -/
  intent : s.intent = none
  /-- The configuration and the index name the same generation. -/
  paired : ∃ c i d, s.Registered c ∧ s.live .index = some i ∧ s.file i = .whole d ∧ d.tables.epoch = c.epoch
  /-- The files exist. -/
  wf : ∀ i, s.Held i → i < s.fresh

variable (P image) in
/-- A file is the index of an intent. -/
def Prepares (s : IndexDir) (I : Recovery) (k : ℕ) : Prop :=
  k < s.fresh ∧ ∃ d, s.file k = .whole d ∧ P.blake3 (image d) = I.databaseHash ∧ d.tables.epoch = I.config.epoch

/-- There is an intent. -/
structure Intends (I : Recovery) (s : IndexDir) : Prop where
  /-- The intent. -/
  intent : s.intent = some (.whole I)
  /-- Its format. -/
  format : I.format = 1
  /-- Its name. -/
  nonce : isHash I.nonce = true
  /-- The hash of the index. -/
  hash : isHash I.databaseHash = true
  /-- The generation. -/
  epoch : isHash I.config.epoch = true
  /-- The configuration is the one that it began with, or its own. -/
  config : ∃ c, s.Registered c ∧ I.config = { c with epoch := I.config.epoch }
  /-- The archive has been made. -/
  archive : (s.archive I.nonce).isSome
  /-- The files exist. -/
  wf : ∀ i, s.Held i → i < s.fresh

variable (P image) in
/-- The index of the intent is prepared, and not at its name yet. -/
structure Ready (I : Recovery) (s : IndexDir) : Prop extends Intends I s where
  /-- The prepared index. -/
  candidate : ∃ k, s.candidate I.nonce = some k ∧ Prepares P image s I k ∧ s.live .index ≠ some k
  /-- No file is in both places. -/
  apart : ∀ n, s.live n = none ∨ s.archived I.nonce n = none

variable (P image) in
/-- The index of the intent is at its name. -/
structure Linked (I : Recovery) (s : IndexDir) : Prop extends Intends I s where
  /-- The index. -/
  live : ∃ k, s.live .index = some k ∧ Prepares P image s I k ∧ (s.candidate I.nonce = none ∨ s.candidate I.nonce = some k)
  /-- Nothing of the old index is beside it. -/
  alone : ∀ n, n ≠ .index → s.live n = none

variable (P image) in
/-- The recovery has come to its end. -/
structure Finished (I : Recovery) (s : IndexDir) : Prop where
  /-- There is no intent. -/
  intent : s.intent = none
  /-- The configuration. -/
  config : s.Registered I.config
  /-- The index. -/
  live : ∃ k, s.live .index = some k ∧ Prepares P image s I k
  /-- Nothing of the old index is beside it. -/
  alone : ∀ n, n ≠ .index → s.live n = none
  /-- The files exist. -/
  wf : ∀ i, s.Held i → i < s.fresh

variable (P image) in
/-- What holds all along. -/
def Sound (s : IndexDir) : Prop := Settled s ∨ ∃ I, Ready P image I s ∨ Linked P image I s

theorem Settled.sound (h : Settled s) : Sound P image s := .inl h

theorem Ready.sound (h : Ready P image I s) : Sound P image s := .inr ⟨I, .inl h⟩

theorem Linked.sound (h : Linked P image I s) : Sound P image s := .inr ⟨I, .inr h⟩

theorem Finished.settled (h : Finished P image I s) : Settled s := by
  obtain ⟨k, hk, -, d, hd, -, hepoch⟩ := h.live
  exact ⟨h.intent, ⟨I.config, k, d, h.config, hk, hd, hepoch⟩, h.wf⟩

theorem holding_refl (s : IndexDir) : Holding s s := fun _ h => ⟨h, rfl⟩

theorem Holding.trans {t : IndexDir} (h : Holding s s') (h' : Holding s' t) : Holding s t := fun i hi =>
  ⟨(h' i (h i hi).1).1, (h' i (h i hi).1).2.trans (h i hi).2⟩

/-- Neither the index, nor what was moved aside, nor a file is touched. -/
theorem holding_of_eq (hfile : s'.file = s.file) (hlive : s'.live = s.live) (harchive : s'.archive = s.archive) :
    Holding s s' := by
  refine fun i hi => ⟨?_, by rw [hfile]⟩
  rw [Held, hlive]
  simp only [archived, harchive]
  exact hi

variable (P image) in
/-- The terms of a recovery that nobody disturbs. -/
def steadily : Contract IndexDir := ⟨fun _ _ => False, Holding, Sound P image⟩

section rules

variable {A : IndexDir → Prop} {err : Error → IndexDir → Prop}

theorem stable_steadily (a : IndexDir → Prop) : Stable (steadily P image) a := fun _ _ h => h.elim

/-- One step. -/
theorem dir_act {α : Type} {f : IndexDir → Except Error α × IndexDir} {Q : α → IndexDir → Prop}
    (hA : ∀ s, A s → Sound P image s) (hQ : ∀ a s, Q a s → Sound P image s) (herr : ∀ e s, err e s → Sound P image s)
    (h : ∀ s, A s → Holding s (f s).2 ∧ outcome Q err (f s).1 (f s).2) :
    Triple (steadily P image) A (Fallible.act f : Io α) (outcome Q err) :=
  Triple.act (stable_steadily _) hA (fun _ => stable_steadily _) (fun v s hv => by
    rcases v with e | a
    · exact herr e s hv
    · exact hQ a s hv) h

/-- A step that reads. -/
theorem dir_look {α : Type} {f : IndexDir → α} (hA : ∀ s, A s → Sound P image s) (herr : ∀ e s, err e s → Sound P image s) :
    Triple (steadily P image) A (Fallible.look f : Io α) (outcome (fun a s => A s ∧ a = f s) err) :=
  dir_act (f := fun s => (.ok (f s), s)) hA (fun _ s h => hA s h.1) herr fun s hs => ⟨holding_refl s, hs, rfl⟩

/-- A result. -/
theorem dir_ret {α : Type} {v : Except Error α} {Q : α → IndexDir → Prop} (hA : ∀ s, A s → Sound P image s)
    (h : ∀ s, A s → outcome Q err v s) : Triple (steadily P image) A (Fallible.ofExcept v : Io α) (outcome Q err) :=
  Triple.ofExcept (stable_steadily _) hA h

/-- A check that holds. -/
theorem dir_check {c : Prop} [Decidable c] {text : String} (hA : ∀ s, A s → Sound P image s) (hc : c) :
    Triple (steadily P image) A (liftM (ensure c text) : Io Unit) (outcome (fun _ => A) err) :=
  dir_ret hA fun s hs => by
    rw [ensure, if_pos hc]
    exact hs

/-- A check that may fail. -/
theorem dir_ensure {c : Prop} [Decidable c] {text : String} (hA : ∀ s, A s → Sound P image s)
    (herr : ∀ e s, A s → err e s) :
    Triple (steadily P image) A (liftM (ensure c text) : Io Unit) (outcome (fun _ s => A s ∧ c) err) :=
  dir_ret hA fun s hs => by
    rw [ensure]
    split_ifs with hc
    · exact ⟨hs, hc⟩
    · exact herr _ s hs

end rules

/-! ### Moving the old index aside -/

theorem held_of_live {n : IndexFile} (h : s.live n = some i) : s.Held i := .inl ⟨n, h⟩

/-- A file is moved aside. -/
def moved (s : IndexDir) (nonce : String) (n : IndexFile) (i : ℕ) (a : IndexFile → Option ℕ) : IndexDir :=
  { s with
    live := Function.update s.live n none
    archive := Function.update s.archive nonce (some (Function.update a n (some i))) }

theorem archived_moved {nonce : String} {n : IndexFile} {a : IndexFile → Option ℕ} (ha : s.archive nonce = some a)
    (other : String) (n' : IndexFile) :
    (s.moved nonce n i a).archived other n' = if other = nonce ∧ n' = n then some i else s.archived other n' := by
  rw [archived, moved]
  dsimp only
  by_cases hother : other = nonce
  · subst hother
    rw [Function.update_self, archived, ha]
    by_cases hn : n' = n
    · subst hn
      simp
    · simp [hn]
  · rw [Function.update_of_ne hother, if_neg fun h => hother h.1, archived]

theorem held_moved {nonce : String} {n : IndexFile} {a : IndexFile → Option ℕ} (ha : s.archive nonce = some a)
    (hn : s.live n = some i) (hfree : s.archived nonce n = none) (j : ℕ) : (s.moved nonce n i a).Held j ↔ s.Held j := by
  constructor
  · rintro (⟨n', hj⟩ | ⟨other, n', hj⟩)
    · change Function.update s.live n none n' = some j at hj
      by_cases hn' : n' = n
      · subst hn'
        rw [Function.update_self] at hj
        cases hj
      · rw [Function.update_of_ne hn'] at hj
        exact .inl ⟨n', hj⟩
    · rw [archived_moved ha] at hj
      split_ifs at hj
      · obtain rfl : i = j := Option.some.inj hj
        exact .inl ⟨n, hn⟩
      · exact .inr ⟨other, n', hj⟩
  · rintro (⟨n', hj⟩ | ⟨other, n', hj⟩)
    · by_cases hn' : n' = n
      · subst hn'
        obtain rfl : i = j := Option.some.inj (hn.symm.trans hj)
        exact .inr ⟨nonce, n', by rw [archived_moved ha, if_pos ⟨rfl, rfl⟩]⟩
      · exact .inl ⟨n', by rw [moved]; exact (Function.update_of_ne hn' _ _).trans hj⟩
    · refine .inr ⟨other, n', ?_⟩
      rw [archived_moved ha, if_neg, hj]
      rintro ⟨rfl, rfl⟩
      rw [hfree] at hj
      cases hj

theorem Ready.moved (h : Ready P image I s) {n : IndexFile} {a : IndexFile → Option ℕ} (ha : s.archive I.nonce = some a)
    (hn : s.live n = some i) (hfree : s.archived I.nonce n = none) : Ready P image I (s.moved I.nonce n i a) where
  intent := h.intent
  format := h.format
  nonce := h.nonce
  hash := h.hash
  epoch := h.epoch
  config := h.config
  archive := by simp [IndexDir.moved]
  wf j hj := h.wf j ((held_moved ha hn hfree j).mp hj)
  candidate := by
    obtain ⟨k, hk, hprepares, hlive⟩ := h.candidate
    refine ⟨k, hk, hprepares, fun hl => ?_⟩
    change Function.update s.live n none .index = some k at hl
    by_cases hindex : IndexFile.index = n
    · rw [← hindex, Function.update_self] at hl
      cases hl
    · rw [Function.update_of_ne hindex] at hl
      exact hlive hl
  apart n' := by
    by_cases hn' : n' = n
    · subst hn'
      exact .inl (Function.update_self _ _ _)
    · rcases h.apart n' with hl | hl
      · exact .inl ((Function.update_of_ne hn' _ _).trans hl)
      · refine .inr ?_
        rw [archived_moved ha, if_neg fun h => hn' h.2, hl]

/-- A file of the old index is moved aside, or is not there. -/
theorem triple_moveFile {err : Error → IndexDir → Prop} (herr : ∀ e s, err e s → Sound P image s) (n : IndexFile)
    (done : IndexFile → Prop) :
    Triple (steadily P image) (fun s => Ready P image I s ∧ ∀ n', done n' → s.live n' = none) (moveFile I.nonce n)
      (outcome (fun _ s => Ready P image I s ∧ ∀ n', done n' ∨ n' = n → s.live n' = none) err) := by
  refine (dir_look (fun s hs => hs.1.sound) herr).andThen fun there => ?_
  split
  · rename_i hthere
    subst hthere
    have hfree : ∀ s, ((Ready P image I s ∧ ∀ n', done n' → s.live n' = none) ∧ true = (s.live n).isSome) →
        s.archived I.nonce n = none := by
      rintro s ⟨⟨hready, -⟩, hsome⟩
      refine (hready.apart n).resolve_left fun hnone => ?_
      rw [hnone] at hsome
      cases hsome
    refine (dir_look (fun s hs => hs.1.1.sound) herr).andThen fun taken => ?_
    refine Triple.andThen (Q := fun _ s => (Ready P image I s ∧ ∀ n', done n' → s.live n' = none) ∧
      true = (s.live n).isSome) (dir_ret (fun s hs => hs.1.1.1.sound) fun s hs => ?_) fun _ => ?_
    · rw [ensure, if_pos (by rw [hs.2, hfree s hs.1]; rfl)]
      exact hs.1
    · refine dir_act (fun s hs => hs.1.1.sound) (fun _ s hs => hs.1.sound) herr fun s hs => ?_
      obtain ⟨i, hi⟩ := Option.isSome_iff_exists.mp hs.2.symm
      obtain ⟨a, ha⟩ := Option.isSome_iff_exists.mp hs.1.1.archive
      have hnone := hfree s hs
      rw [hi, ha]
      refine ⟨fun j hj => ⟨(held_moved ha hi hnone j).mpr hj, rfl⟩, hs.1.1.moved ha hi hnone, fun n' hn' => ?_⟩
      by_cases heq : n' = n
      · rw [heq]
        exact Function.update_self _ _ _
      · exact (Function.update_of_ne heq _ _).trans (hs.1.2 n' (hn'.resolve_right heq))
  · rename_i hthere
    refine dir_ret (fun s hs => hs.1.1.sound) fun s hs => ⟨hs.1.1, fun n' hn' => ?_⟩
    rcases hn' with hn' | rfl
    · exact hs.1.2 n' hn'
    · rw [hs.2] at hthere
      simpa using hthere

/-- The old index is moved aside, or has been. -/
theorem triple_moveAside {err : Error → IndexDir → Prop} (herr : ∀ e s, err e s → Sound P image s) (names : List IndexFile)
    (done : IndexFile → Prop) :
    Triple (steadily P image) (fun s => Ready P image I s ∧ ∀ n, done n → s.live n = none) (moveAside I.nonce names)
      (outcome (fun _ s => Ready P image I s ∧ ∀ n, done n ∨ n ∈ names → s.live n = none) err) := by
  induction names generalizing done with
  | nil =>
    refine dir_ret (fun s hs => hs.1.sound) fun s hs => ⟨hs.1, fun n hn => ?_⟩
    exact hs.2 n (hn.resolve_right List.not_mem_nil)
  | cons n rest ih =>
    refine (triple_moveFile herr n done).andThen fun _ => (ih fun n' => done n' ∨ n' = n).conseq (fun _ h => h) fun v s hs => ?_
    rcases v with e | a
    · exact hs
    · refine ⟨hs.1, fun n' hn' => hs.2 n' ?_⟩
      rcases hn' with hn' | hn'
      · exact .inl (.inl hn')
      · exact (List.mem_cons.mp hn').elim (fun h => .inl (.inr h)) .inr

/-! ### Publishing the index -/

section finish

variable {err : Error → IndexDir → Prop} (herr : ∀ e s, err e s → Sound P image s)
include herr

omit herr in
theorem holding_live (hnone : s.live .index = none) (k : ℕ) :
    Holding s { s with live := Function.update s.live .index (some k) } := by
  rintro j (⟨n, hj⟩ | hj)
  · refine ⟨.inl ⟨n, ?_⟩, rfl⟩
    have hn : n ≠ .index := by
      rintro rfl
      rw [hnone] at hj
      cases hj
    exact (Function.update_of_ne hn _ _).trans hj
  · exact ⟨.inr hj, rfl⟩

/-- The prepared index gets its name. -/
theorem triple_linkIndex : Triple (steadily P image)
    (fun s => Ready P image I s ∧ ∀ n, s.live n = none) (linkIndex I.nonce)
    (outcome (fun _ s => Linked P image I s ∧ (s.candidate I.nonce).isSome) err) := by
  refine dir_act (fun s hs => hs.1.sound) (fun _ s hs => hs.1.sound) herr fun s hs => ?_
  obtain ⟨hready, hnone⟩ := hs
  obtain ⟨k, hk, hprepares, -⟩ := hready.candidate
  rw [hk, hnone .index]
  have hnow : Function.update s.live .index (some k) .index = some k := Function.update_self _ _ _
  refine ⟨holding_live (hnone _) k, ⟨⟨hready.intent, hready.format, hready.nonce, hready.hash, hready.epoch, hready.config,
    hready.archive, ?_⟩, ⟨k, hnow, hprepares, .inr hk⟩, fun n hn => ?_⟩, by simp [hk]⟩
  · rintro j (⟨n, hj⟩ | hj)
    · change Function.update s.live .index (some k) n = some j at hj
      by_cases hn : n = .index
      · subst hn
        rw [Function.update_self] at hj
        obtain rfl : k = j := Option.some.inj hj
        exact hprepares.1
      · rw [Function.update_of_ne hn, hnone] at hj
        cases hj
    · exact hready.wf j (.inr hj)
  · exact (Function.update_of_ne hn _ _).trans (hnone n)

theorem triple_replaceIndex : Triple (steadily P image)
    (fun s => (Ready P image I s ∨ Linked P image I s) ∧ (s.candidate I.nonce).isSome) (replaceIndex I.nonce)
    (outcome (fun _ s => Linked P image I s ∧ (s.candidate I.nonce).isSome) err) := by
  have hsound : ∀ s, (Ready P image I s ∨ Linked P image I s) ∧ (s.candidate I.nonce).isSome → Sound P image s :=
    fun s hs => .inr ⟨I, hs.1⟩
  refine (dir_look hsound herr).andThen fun published => ?_
  split
  · rename_i hpublished
    refine dir_ret (fun s hs => hsound s hs.1) fun s hs => ⟨?_, hs.1.2⟩
    rw [hs.2, Bool.and_eq_true, beq_iff_eq] at hpublished
    refine hs.1.1.resolve_left fun hready => ?_
    obtain ⟨k, hk, -, hlive⟩ := hready.candidate
    exact hlive (hpublished.2 ▸ hk)
  · rename_i hpublished
    have hready : ∀ s, ((Ready P image I s ∨ Linked P image I s) ∧ (s.candidate I.nonce).isSome) ∧
        published = ((s.live .index).isSome && (s.candidate I.nonce == s.live .index)) → Ready P image I s := by
      rintro s ⟨⟨hcase, hsome⟩, rfl⟩
      refine hcase.resolve_right fun hlinked => hpublished ?_
      obtain ⟨k, hk, -, hcandidate⟩ := hlinked.live
      rcases hcandidate with hnone | hk'
      · rw [hnone] at hsome
        cases hsome
      · simp [hk, hk']
    refine ((triple_moveAside (I := I) herr [.wal, .shm, .journal, .index] fun _ => False).conseq
      (fun s hs => ⟨hready s hs, fun _ h => h.elim⟩) fun _ _ h => h).andThen fun _ => ?_
    refine (triple_linkIndex herr).conseq (fun s hs => ⟨hs.1, fun n => hs.2 n (.inr ?_)⟩) fun _ _ h => h
    cases n <;> simp

omit herr in
theorem Linked.setCandidate (h : Linked P image I s) (candidate : String → Option ℕ)
    (hnone : candidate I.nonce = none) : Linked P image I { s with candidate } where
  intent := h.intent
  format := h.format
  nonce := h.nonce
  hash := h.hash
  epoch := h.epoch
  config := h.config
  archive := h.archive
  wf := h.wf
  live := by
    obtain ⟨k, hk, hprepares, -⟩ := h.live
    exact ⟨k, hk, hprepares, .inl hnone⟩
  alone := h.alone

omit herr in
/-- The digest of what the intent has prepared. -/
theorem Prepares.digest (h : Prepares P image s I k) : IndexDir.digest P image (s.file k) = some I.databaseHash := by
  obtain ⟨-, d, hd, hhash, -⟩ := h
  rw [hd, IndexDir.digest, hhash]

/-- The prepared index is published. -/
theorem triple_publishIndex : Triple (steadily P image) (fun s => Ready P image I s ∨ Linked P image I s)
    (publishIndex P image I) (outcome (fun _ => Linked P image I) err) := by
  have hsound : ∀ s, Ready P image I s ∨ Linked P image I s → Sound P image s := fun s hs => .inr ⟨I, hs⟩
  have hprepared : ∀ s, (Ready P image I s ∨ Linked P image I s) → (s.candidate I.nonce).isSome →
      ∃ k, s.candidate I.nonce = some k ∧ Prepares P image s I k := by
    rintro s (h | h) hsome
    · obtain ⟨k, hk, hprepares, -⟩ := h.candidate
      exact ⟨k, hk, hprepares⟩
    · obtain ⟨k, -, hprepares, hnone | hk⟩ := h.live
      · rw [hnone] at hsome
        cases hsome
      · exact ⟨k, hk, hprepares⟩
  refine (dir_look hsound herr).andThen fun there => ?_
  split
  · rename_i hthere
    subst hthere
    refine Triple.andThen (Q := fun prepared s => ((Ready P image I s ∨ Linked P image I s) ∧ (s.candidate I.nonce).isSome) ∧
      prepared = some I.databaseHash) (dir_act (fun s hs => hsound s hs.1) (fun _ s hs => hsound s hs.1.1) herr fun s hs => ?_)
      fun prepared => Triple.fact fun hp => ?_
    · obtain ⟨k, hk, hprepares⟩ := hprepared s hs.1 hs.2.symm
      dsimp only
      rw [hk]
      exact ⟨holding_refl s, ⟨hs.1, hs.2.symm⟩, hprepares.digest⟩
    · refine (dir_check (fun s hs => hsound s hs.1) hp).andThen fun _ => (triple_replaceIndex herr).andThen fun _ => ?_
      refine dir_act (fun s hs => hs.1.sound) (fun _ s hs => hs.sound) herr fun s hs => ?_
      obtain ⟨k, hk⟩ := Option.isSome_iff_exists.mp hs.2
      rw [hk]
      exact ⟨holding_of_eq rfl rfl rfl, hs.1.setCandidate _ (Function.update_self _ _ _)⟩
  · rename_i hthere
    refine dir_ret (fun s hs => hsound s hs.1) fun s hs => hs.1.resolve_left fun hready => hthere ?_
    obtain ⟨k, hk, -⟩ := hready.candidate
    rw [hs.2, hk]
    rfl

end finish

/-! ### Finishing -/

theorem Intends.parse (h : Intends I s) : Registration.parse I.config.text = .ok I.config := by
  obtain ⟨c, hc, hconfig⟩ := h.config
  rw [hconfig]
  exact Registration.parse_setEpoch hc.2 h.epoch

theorem Linked.setConfig (h : Linked P image I s) (scratch : List (Document Registration)) :
    Linked P image I { s with config := some (.file I.config.text), scratch } where
  intent := h.intent
  format := h.format
  nonce := h.nonce
  hash := h.hash
  epoch := h.epoch
  config := ⟨I.config, ⟨rfl, h.parse⟩, rfl⟩
  archive := h.archive
  wf := h.wf
  live := h.live
  alone := h.alone

theorem Linked.setScratch (h : Linked P image I s) (scratch : List (Document Registration)) :
    Linked P image I { s with scratch } where
  intent := h.intent
  format := h.format
  nonce := h.nonce
  hash := h.hash
  epoch := h.epoch
  config := h.config
  archive := h.archive
  wf := h.wf
  live := h.live
  alone := h.alone

theorem intends_of_pending (h : Ready P image I s ∨ Linked P image I s) : Intends I s :=
  h.elim (fun h => h.toIntends) fun h => h.toIntends

/-- The configuration is replaced. -/
theorem triple_replaceConfig {err : Error → IndexDir → Prop} (herr : ∀ e s, err e s → Sound P image s) :
    Triple (steadily P image) (Linked P image I) (replaceConfig I.config)
      (outcome (fun _ s => Linked P image I s ∧ s.Registered I.config) err) := by
  have hlinked : ∀ s, Linked P image I s → Sound P image s := fun s hs => hs.sound
  refine Triple.andThen (Q := fun _ => Linked P image I) (dir_act hlinked (fun _ => hlinked) herr fun s hs => ?_) fun _ => ?_
  · exact ⟨holding_of_eq rfl rfl rfl, hs.setScratch _⟩
  refine Triple.andThen (Q := fun _ => Linked P image I) (dir_act hlinked (fun _ => hlinked) herr fun s hs => ?_) fun _ => ?_
  · exact ⟨holding_of_eq rfl rfl rfl, hs.setScratch _⟩
  · exact dir_act hlinked (fun _ s hs => hs.1.sound) herr fun s hs =>
      ⟨holding_of_eq rfl rfl rfl, hs.setConfig _, rfl, hs.parse⟩

/-- **A recovery goes on** from wherever it was stopped, to its end, if the folder and the device are there. -/
theorem triple_finish : Triple (steadily P image) (fun s => Ready P image I s ∨ Linked P image I s) (finish P image w id I)
    (outcome (fun _ => Finished P image I) fun _ s => Sound P image s ∧ w.binding P id I.config ≠ .ok ()) := by
  have hsound : ∀ s, Ready P image I s ∨ Linked P image I s → Sound P image s := fun s hs => .inr ⟨I, hs⟩
  have herr : ∀ (e : Error) s, Sound P image s ∧ w.binding P id I.config ≠ .ok () → Sound P image s := fun _ _ h => h.1
  refine Triple.conseq (P := fun s => (Ready P image I s ∨ Linked P image I s) ∧
    (I.format = 1 ∧ isHash I.nonce = true ∧ isHash I.databaseHash = true ∧ isHash I.config.epoch = true))
    (Triple.fact fun hfacts => ?_) (fun s hs => ⟨hs, ?_⟩) fun _ _ h => h
  swap
  · have h := intends_of_pending hs
    exact ⟨h.format, h.nonce, h.hash, h.epoch⟩
  obtain ⟨hformat, hnonce, hhash, hepoch⟩ := hfacts
  refine (dir_check hsound hformat).andThen fun _ => (dir_check hsound hnonce).andThen fun _ =>
    (dir_check hsound hhash).andThen fun _ => (dir_check hsound hepoch).andThen fun _ => ?_
  refine Triple.andThen (Q := fun _ s => Ready P image I s ∨ Linked P image I s) (dir_ret hsound fun s hs => ?_) fun _ => ?_
  · cases hb : w.binding P id I.config with
    | error e => exact ⟨hsound s hs, by simp⟩
    | ok u => exact hs
  -- The configuration is the one that the recovery began with, or its own.
  refine Triple.andThen (Q := fun current s => (Ready P image I s ∨ Linked P image I s) ∧
    I.config = { current with epoch := I.config.epoch }) (dir_act hsound (fun _ s hs => hsound s hs.1) herr fun s hs => ?_)
    fun current => Triple.fact fun hcurrent => ?_
  · obtain ⟨c, hc, hconfig⟩ := (intends_of_pending hs).config
    dsimp only
    rw [hc.configOf]
    exact ⟨holding_refl s, hs, hconfig⟩
  have hsame : current.id = I.config.id ∧ current.root = I.config.root ∧ current.identity = I.config.identity ∧
      current.marker = I.config.marker ∧ current.mode = I.config.mode ∧ current.peers = I.config.peers := by
    rw [hcurrent]
    exact ⟨rfl, rfl, rfl, rfl, rfl, rfl⟩
  refine (dir_check hsound hsame).andThen fun _ => ?_
  refine Triple.andThen (Q := fun _ s => Ready P image I s ∨ Linked P image I s)
    (dir_act hsound (fun _ => hsound) herr fun s hs => ?_) fun _ => ?_
  · rw [if_pos (intends_of_pending hs).archive]
    exact ⟨holding_refl s, hs⟩
  refine (triple_publishIndex herr).andThen fun _ => ?_
  have hlinked : ∀ s, Linked P image I s → Sound P image s := fun s hs => hs.sound
  refine Triple.andThen (Q := fun published s => Linked P image I s ∧ published = some I.databaseHash)
    (dir_act hlinked (fun _ s hs => hs.1.sound) herr fun s hs => ?_) fun published => Triple.fact fun hpublished => ?_
  · obtain ⟨k, hk, hprepares, -⟩ := hs.live
    dsimp only
    rw [hk]
    exact ⟨holding_refl s, hs, hprepares.digest⟩
  refine (dir_check hlinked hpublished).andThen fun _ => (triple_replaceConfig herr).andThen fun _ => ?_
  refine dir_act (fun s hs => hs.1.sound) (fun _ s hs => hs.settled.sound) herr fun s hs => ?_
  obtain ⟨hs, hconfig⟩ := hs
  rw [hs.intent]
  obtain ⟨k, hk, hprepares, -⟩ := hs.live
  exact ⟨holding_of_eq rfl rfl rfl, rfl, hconfig, ⟨k, hk, hprepares⟩, hs.alone, hs.wf⟩

/-- What opening does first. -/
theorem triple_resume : Triple (steadily P image) (Sound P image) (resume P image w id)
    (outcome (fun _ => Settled) fun _ => Sound P image) := by
  have hany : ∀ s, Sound P image s → Sound P image s := fun _ h => h
  have hsettled : ∀ s, Settled s → Sound P image s := fun s hs => hs.sound
  refine (dir_look hany fun _ => hany).andThen fun there => ?_
  split
  · rename_i hthere
    subst hthere
    refine Triple.andThen (Q := fun I s => Ready P image I s ∨ Linked P image I s)
      (dir_act (fun s hs => hs.1) (fun I s hs => .inr ⟨I, hs⟩) (fun _ => hany) fun s hs => ?_) fun I => ?_
    · refine ⟨holding_refl s, ?_⟩
      rcases hs.1 with hsettled | ⟨I, hI⟩
      · rw [hsettled.intent] at hs
        cases hs.2
      · dsimp only
        rw [(intends_of_pending hI).intent]
        exact hI
    · refine triple_finish.conseq (fun _ h => h) fun v s hs => ?_
      rcases v with e | a
      · exact hs.1
      · exact hs.settled
  · rename_i hthere
    refine dir_ret (fun s hs => hs.1) fun s hs => ?_
    refine hs.1.resolve_right fun ⟨I, hI⟩ => hthere ?_
    rw [hs.2, (intends_of_pending hI).intent]
    rfl

/-! ### Preparing -/

/-- The archive of a recovery has been made, and nothing is in it. -/
structure Begun (nonce : String) (config : Registration) (s : IndexDir) : Prop extends Settled s where
  /-- The configuration. -/
  registered : s.Registered config
  /-- The archive. -/
  archive : s.archive nonce = some fun _ => none

/-- An index is being prepared. -/
structure Copied (nonce : String) (config : Registration) (k : ℕ) (doc : Document Database) (s : IndexDir) : Prop
    extends Begun nonce config s where
  /-- Its name. -/
  candidate : s.candidate nonce = some k
  /-- It exists. -/
  lt : k < s.fresh
  /-- It belongs to no index. -/
  apart : ¬ s.Held k
  /-- What is in it. -/
  file : s.file k = doc

variable {nonce epoch : String} {config : Registration} {doc doc' : Document Database}

theorem Begun.sound (h : Begun nonce config s) : Sound P image s := h.toSettled.sound

theorem Copied.sound (h : Copied nonce config k doc s) : Sound P image s := h.toSettled.sound

/-- A file that belongs to no index is written. -/
theorem holding_write {file : ℕ → Document Database} {candidate : String → Option ℕ} {fresh : ℕ}
    (h : ∀ i, s.Held i → file i = s.file i) : Holding s { s with file, candidate, fresh } := fun i hi => ⟨hi, h i hi⟩

theorem Settled.write (h : Settled s) {file : ℕ → Document Database} {candidate : String → Option ℕ} {fresh : ℕ}
    (hfile : ∀ i, s.Held i → file i = s.file i) (hfresh : s.fresh ≤ fresh) :
    Settled { s with file, candidate, fresh } where
  intent := h.intent
  paired := by
    obtain ⟨c, i, d, hc, hi, hd, hepoch⟩ := h.paired
    exact ⟨c, i, d, hc, hi, (hfile i (held_of_live hi)).trans hd, hepoch⟩
  wf i hi := (h.wf i hi).trans_le hfresh

theorem Copied.write (h : Copied nonce config k doc s) (doc' : Document Database) :
    Holding s { s with file := Function.update s.file k doc' } ∧
      Copied nonce config k doc' { s with file := Function.update s.file k doc' } := by
  have hfile : ∀ i, s.Held i → Function.update s.file k doc' i = s.file i := fun i hi =>
    Function.update_of_ne (fun he : i = k => h.apart (he ▸ hi)) _ _
  have hsettled : Settled { s with file := Function.update s.file k doc' } := h.toSettled.write hfile le_rfl
  exact ⟨fun i hi => ⟨hi, hfile i hi⟩, ⟨⟨hsettled, h.registered, h.archive⟩, h.candidate, h.lt, h.apart,
    Function.update_self _ _ _⟩⟩

/-- The database of a checkpoint is copied. -/
theorem triple_copyDatabase (database : Database) : Triple (steadily P image) (Begun nonce config)
    (copyDatabase P image nonce database)
    (outcome (fun k s => Copied nonce config k (.whole database) s) fun _ => Sound P image) := by
  have herr : ∀ (e : Error) s, Sound P image s → Sound P image s := fun _ _ h => h
  have hbegun : ∀ s, Begun nonce config s → Sound P image s := fun s hs => hs.sound
  have hcopied : ∀ {k doc} s, Copied nonce config k doc s → Sound P image s := fun s hs => hs.sound
  refine Triple.andThen (Q := fun k s => Copied nonce config k .torn s) (dir_act hbegun (fun _ => hcopied) herr
    fun s hs => ?_) fun k => ?_
  · split
    · exact ⟨holding_refl s, hs.sound⟩
    · have hfile : ∀ i, s.Held i → Function.update s.file s.fresh .torn i = s.file i := fun i hi =>
        Function.update_of_ne (hs.wf i hi).ne _ _
      exact ⟨holding_write hfile, ⟨hs.toSettled.write hfile (Nat.le_succ _), hs.registered, hs.archive⟩,
        Function.update_self _ _ _, Nat.lt_succ_self _, fun h => (hs.wf _ h).ne rfl, Function.update_self _ _ _⟩
  refine Triple.andThen (Q := fun _ => Copied nonce config k (.whole database))
    (dir_act hcopied (fun _ => hcopied) herr fun s hs => hs.write _) fun _ => ?_
  refine Triple.andThen (Q := fun _ => Copied nonce config k (.whole database))
    (dir_act hcopied (fun _ => hcopied) herr fun s hs => ?_) fun copied => ?_
  · dsimp only
    rw [hs.candidate]
    exact ⟨holding_refl s, hs⟩
  refine (dir_ensure hcopied fun _ s hs => hs.sound).andThen fun _ => ?_
  exact dir_ret (fun s hs => hs.1.sound) fun s hs => hs.1

theorem Copied.setStaging (h : Copied nonce config k doc s) (staging : String → Option (Document Recovery)) :
    Copied nonce config k doc { s with staging } where
  intent := h.intent
  paired := h.paired
  wf := h.wf
  registered := h.registered
  archive := h.archive
  candidate := h.candidate
  lt := h.lt
  apart := h.apart
  file := h.file

theorem Ready.setStaging (h : Ready P image I s) (staging : String → Option (Document Recovery)) :
    Ready P image I { s with staging } where
  intent := h.intent
  format := h.format
  nonce := h.nonce
  hash := h.hash
  epoch := h.epoch
  config := h.config
  archive := h.archive
  wf := h.wf
  candidate := h.candidate
  apart := h.apart

/-- The intent is published. -/
theorem triple_publishIntent {d : Database} (hformat : I.format = 1) (hnonce : isHash I.nonce = true)
    (hhash : isHash I.databaseHash = true) (hepoch : isHash I.config.epoch = true)
    (hconfig : I.config = { config with epoch := I.config.epoch }) (hdatabase : P.blake3 (image d) = I.databaseHash)
    (htables : d.tables.epoch = I.config.epoch) :
    Triple (steadily P image) (Copied I.nonce config k (.whole d)) (publishIntent I)
      (outcome (fun _ => Ready P image I) fun _ => Sound P image) := by
  have herr : ∀ (e : Error) s, Sound P image s → Sound P image s := fun _ _ h => h
  have hcopied : ∀ s, Copied I.nonce config k (.whole d) s → Sound P image s := fun s hs => hs.sound
  have hready : ∀ s, Ready P image I s → Sound P image s := fun s hs => hs.sound
  refine Triple.andThen (Q := fun _ => Copied I.nonce config k (.whole d))
    (dir_act hcopied (fun _ => hcopied) herr fun s hs => ?_) fun _ => ?_
  · split
    · exact ⟨holding_refl s, hs.sound⟩
    · exact ⟨holding_of_eq rfl rfl rfl, hs.setStaging _⟩
  refine Triple.andThen (Q := fun _ s => Copied I.nonce config k (.whole d) s ∧ s.staging I.nonce = some (.whole I))
    (dir_act hcopied (fun _ s hs => hs.1.sound) herr fun s hs => ?_) fun _ => ?_
  · exact ⟨holding_of_eq rfl rfl rfl, hs.setStaging _, Function.update_self _ _ _⟩
  refine Triple.andThen (Q := fun _ => Ready P image I) (dir_act (fun s hs => hs.1.sound) (fun _ => hready) herr
    fun s hs => ?_) fun _ => ?_
  · obtain ⟨hs, hstaging⟩ := hs
    rw [hs.intent]
    refine ⟨holding_of_eq rfl rfl rfl, ⟨hstaging, hformat, hnonce, hhash, hepoch, ⟨config, hs.registered, hconfig⟩, ?_, hs.wf⟩,
      ⟨k, hs.candidate, ⟨hs.lt, d, hs.file, hdatabase, htables⟩, fun hlive => hs.apart (held_of_live hlive)⟩, fun n => .inr ?_⟩
    · change (s.archive I.nonce).isSome
      rw [hs.archive]
      rfl
    · change (s.archive I.nonce).bind _ = none
      rw [hs.archive]
      rfl
  · exact dir_act hready (fun _ => hready) herr fun s hs => ⟨holding_of_eq rfl rfl rfl, hs.setStaging _⟩

/-- **A recovery is prepared** beside the old generation, which stays as it is until the intent is published. -/
theorem triple_prepare (hhash : ∀ bytes, isHash (P.blake3 bytes) = true) (hnonce : isHash nonce = true)
    (hepoch : isHash epoch = true) (checkpoint : Result (Registration × Database)) :
    Triple (steadily P image) Settled (prepare P image w id checkpoint nonce epoch)
      (outcome (fun I => Ready P image I) fun _ => Sound P image) := by
  have herr : ∀ (e : Error) s, Sound P image s → Sound P image s := fun _ _ h => h
  have hsettled : ∀ s, Settled s → Sound P image s := fun s hs => hs.sound
  have hcopied : ∀ {k config doc} s, Copied nonce config k doc s → Sound P image s := fun s hs => hs.sound
  -- A check that depends on nothing here.
  have hcheck : ∀ {α : Type} {A : IndexDir → Prop} (v : Result α), (∀ s, A s → Sound P image s) →
      Triple (steadily P image) A (Fallible.ofExcept v : Io α) (outcome (fun _ => A) fun _ => Sound P image) := by
    refine fun v hA => dir_ret hA fun s hs => ?_
    rcases v with e | a
    · exact hA s hs
    · exact hs
  refine Triple.andThen (Q := fun config s => Settled s ∧ s.Registered config) (dir_act hsettled
    (fun _ s hs => hs.1.sound) herr fun s hs => ?_) fun config => ?_
  · obtain ⟨c, i, d, hc, -⟩ := hs.paired
    dsimp only
    rw [hc.configOf]
    exact ⟨holding_refl s, hs, hc⟩
  have hread : ∀ s, Settled s ∧ s.Registered config → Sound P image s := fun s hs => hs.1.sound
  refine (hcheck _ hread).andThen fun _ => (hcheck _ hread).andThen fun manifest => (hcheck _ hread).andThen fun _ => ?_
  refine Triple.andThen (Q := fun _ => Begun nonce config) (dir_act hread (fun _ s hs => hs.sound) herr fun s hs => ?_)
    fun _ => ?_
  · split
    · exact ⟨holding_refl s, hs.1.sound⟩
    · rename_i hnone
      have harchived : ∀ other n, (∃ i, s.archived other n = some i) → other ≠ nonce := by
        rintro other n ⟨i, hi⟩ rfl
        rw [archived, hnone] at hi
        cases hi
      have hheld : ∀ i, s.Held i ↔
          Held { s with archive := Function.update s.archive nonce (some fun _ => none) } i := by
        refine fun i => or_congr Iff.rfl (exists_congr fun other => exists_congr fun n => ?_)
        change s.archived other n = some i ↔
          (Function.update s.archive nonce (some fun _ => none) other).bind (fun a => a n) = some i
        by_cases hother : other = nonce
        · subst hother
          rw [Function.update_self, archived, hnone]
          simp
        · rw [Function.update_of_ne hother, archived]
      exact ⟨fun i hi => ⟨(hheld i).mp hi, rfl⟩, ⟨hs.1.intent, hs.1.paired, fun i hi => hs.1.wf i ((hheld i).mpr hi)⟩, hs.2,
        Function.update_self _ _ _⟩
  refine (triple_copyDatabase manifest.2).andThen fun k => ?_
  refine Triple.andThen (Q := fun _ => Copied nonce config k (.whole (stamp epoch config manifest.2)))
    (dir_act hcopied (fun _ => hcopied) herr fun s hs => hs.write _) fun _ => ?_
  refine (hcheck _ hcopied).andThen fun _ => (hcheck _ hcopied).andThen fun _ => ?_
  refine (triple_publishIntent (I := ⟨1, nonce, P.blake3 (image (stamp epoch config manifest.2)), { config with epoch }⟩)
    rfl hnonce (hhash _) hepoch rfl rfl rfl).andThen fun _ => ?_
  exact dir_ret (fun s hs => hs.sound) fun s hs => hs

/-- A recovery from a checkpoint. -/
theorem triple_recover (hhash : ∀ bytes, isHash (P.blake3 bytes) = true) (hnonce : isHash nonce = true)
    (hepoch : isHash epoch = true) (checkpoint : Result (Registration × Database)) :
    Triple (steadily P image) (Sound P image) (recover P image w id checkpoint nonce epoch)
      (outcome (fun _ => Settled) fun _ => Sound P image) := by
  refine triple_resume.andThen fun _ => (triple_prepare hhash hnonce hepoch checkpoint).andThen fun I => ?_
  refine triple_finish.conseq (fun s hs => .inl hs) fun v s hs => ?_
  rcases v with e | a
  · exact hs.1
  · exact hs.settled

/-- The share is opened. -/
theorem triple_openIndex (folder : Result Unit) : Triple (steadily P image) (Sound P image) (openIndex P image w id folder)
    (outcome (fun _ => Settled) fun _ => Sound P image) := by
  have hlook : ∀ {α : Type} {f : IndexDir → Except Error α}, Triple (steadily P image) Settled
      (Fallible.act fun s => (f s, s) : Io α) (outcome (fun _ => Settled) fun _ => Sound P image) := by
    refine fun {α f} => dir_act (fun s hs => hs.sound) (fun _ s hs => hs.sound) (fun _ _ h => h) fun s hs => ⟨holding_refl s, ?_⟩
    dsimp only
    rcases f s with e | a
    · exact hs.sound
    · exact hs
  have hlift : ∀ {α : Type} (v : Result α), Triple (steadily P image) Settled
      (Fallible.ofExcept v : Io α) (outcome (fun _ => Settled) fun _ => Sound P image) := fun v =>
    dir_ret (fun s hs => hs.sound) fun s hs => by
      rcases v with e | a
      · exact hs.sound
      · exact hs
  refine triple_resume.andThen fun _ => hlook.andThen fun config => (hlift _).andThen fun _ => (hlift _).andThen fun der =>
    (hlift _).andThen fun _ => hlook.andThen fun i => hlook.andThen fun database => (hlift _).andThen fun _ =>
      (hlift _).andThen fun _ => (hlift _).andThen fun _ => ?_
  exact dir_ret (fun s hs => hs.sound) fun s hs => hs

/-! ### Whatever was stopped -/

/-- The share was used between recoveries. -/
structure Used (s s' : IndexDir) : Prop where
  /-- It had one generation. -/
  before : Settled s
  /-- It has one. -/
  after : Settled s'
  /-- Nobody touches what was moved aside. -/
  kept : ∀ nonce n i, s.archived nonce n = some i → s'.archived nonce n = some i ∧ s'.file i = s.file i

variable (P image) in
/-- What the directory of a share may be like: it was used, recoveries were begun and the share was opened, and each of these
came to its end or was stopped. -/
inductive Reachable : IndexDir → Prop
  /-- There was no recovery yet. -/
  | start {s : IndexDir} : Settled s → Reachable s
  /-- It was used. -/
  | used {s s' : IndexDir} : Reachable s → Used s s' → Reachable s'
  /-- A recovery was begun. -/
  | recovered {w : World} {id : String} {checkpoint : Result (Registration × Database)} {nonce epoch : Digest} {q : Io Unit}
      {s s' : IndexDir} : Reachable s →
      Prog.Reaches (fun _ _ => False) (recover P image w id checkpoint nonce epoch) s q s' → Reachable s'
  /-- It was opened. -/
  | opened {w : World} {id : String} {folder : Result Unit} {q : Io Registration} {s s' : IndexDir} : Reachable s →
      Prog.Reaches (fun _ _ => False) (openIndex P image w id folder) s q s' → Reachable s'

theorem Reachable.sound (hhash : ∀ bytes, isHash (P.blake3 bytes) = true) (h : Reachable P image s) : Sound P image s := by
  induction h with
  | start h => exact h.sound
  | used _ h _ => exact h.after.sound
  | @recovered w id checkpoint nonce epoch q s s' _ h ih =>
    exact ((triple_recover hhash nonce.2 epoch.2 checkpoint s ih).reaches h).inv
  | @opened w id folder q s s' _ h ih => exact ((triple_openIndex folder _ ih).reaches h).inv

/-- What a program has come to holds all files. -/
theorem holding_of_meets {α : Type} {p q : Prog IndexDir α} {Q : α → IndexDir → Prop} (h : Meets (steadily P image) p Q s)
    (hr : Prog.Reaches (fun _ _ => False) p s q s') : Holding s s' := by
  have htrace := h.trace hr
  clear hr h
  induction htrace with
  | refl => exact holding_refl s
  | tail _ hstep ih =>
    rcases hstep with hrely | hguar
    · exact hrely.elim
    · exact ih.trans hguar

/-- **No file of an index is lost or changed** by a recovery, nor by opening the share, wherever it is stopped. -/
theorem generations_kept (hhash : ∀ bytes, isHash (P.blake3 bytes) = true) (h : Reachable P image s) :
    (∀ (checkpoint : Result (Registration × Database)) (nonce epoch : Digest) (q : Io Unit),
      Prog.Reaches (fun _ _ => False) (recover P image w id checkpoint nonce epoch) s q s' → Holding s s') ∧
    ∀ (folder : Result Unit) (q : Io Registration),
      Prog.Reaches (fun _ _ => False) (openIndex P image w id folder) s q s' → Holding s s' :=
  ⟨fun checkpoint nonce epoch _ hr =>
      holding_of_meets (triple_recover hhash nonce.2 epoch.2 checkpoint s (h.sound hhash)) hr,
    fun folder _ hr => holding_of_meets (triple_openIndex folder s (h.sound hhash)) hr⟩

/-- The check of the folder and the device does not depend on the generation. -/
theorem binding_epoch (c : Registration) (epoch : String) :
    w.binding P id { c with epoch := epoch } = w.binding P id c := rfl

/-- A recovery that was stopped is brought to its end. -/
theorem run_resume (hs : Sound P image s) (hbound : ∀ c, s.Registered c → w.binding P id c = .ok ()) :
    ∃ s', Fallible.run (resume P image w id) s = (.ok (), s') ∧ Settled s' ∧ (s.intent = none → s' = s) ∧
      ∀ I, s.intent = some (.whole I) → Finished P image I s' := by
  rw [resume, Fallible.run_bind, Fallible.run_look]
  rcases hs with hsettled | ⟨I, hI⟩
  · refine ⟨s, ?_, hsettled, fun _ => rfl, fun I hI => ?_⟩
    · simp [hsettled.intent]
    · rw [hsettled.intent] at hI
      cases hI
  · have hintends := intends_of_pending hI
    obtain ⟨c, hc, hconfig⟩ := hintends.config
    have hok : w.binding P id I.config = .ok () := by
      rw [hconfig, binding_epoch]
      exact hbound c hc
    have hfinish : outcome (fun _ => Finished P image I) (fun _ s => Sound P image s ∧ w.binding P id I.config ≠ .ok ())
        (Fallible.run (finish P image w id I) s).1 (Fallible.run (finish P image w id I) s).2 :=
      (triple_finish s hI).run
    have hrun : Fallible.run (finish P image w id I) s = (.ok (), (Fallible.run (finish P image w id I) s).2) ∧
        Finished P image I (Fallible.run (finish P image w id I) s).2 := by
      rcases hv : Fallible.run (finish P image w id I) s with ⟨e | ⟨⟩, s'⟩
      · rw [hv] at hfinish
        exact absurd hok hfinish.2
      · rw [hv] at hfinish
        exact ⟨rfl, hfinish⟩
    refine ⟨_, ?_, hrun.2.settled, fun hnone => ?_, fun J hJ => ?_⟩
    · simp only [hintends.intent, Option.isSome_some, if_true]
      rw [Fallible.run_bind, Fallible.run_act, hintends.intent]
      exact hrun.1
    · rw [hintends.intent] at hnone
      cases hnone
    · obtain rfl : I = J := by simpa [hintends.intent] using hJ
      exact hrun.2

/-- The share as the registry of the device sees it. -/
def slot (s : IndexDir) : Slot where
  config := s.config.bind fun
    | .file bytes => some bytes
    | .other => none
  intent := s.intent.bind fun
    | .whole I => some I.config
    | .torn => none
  objects := true
  index := (s.live .index).isSome

/-- **What the registry sees of the end of a recovery** is the end of one as the registry has it: the configuration of the intent is
checked and written, and the intent is gone. -/
theorem finish_slot (h : Ready P image I s ∨ Linked P image I s) (hbound : w.binding P id I.config = .ok ()) :
    ∃ s', Fallible.run (finish P image w id I) s = (.ok (), s') ∧
      World.finishSlot P w id (.ok ()) s.slot = .ok (I.config, { s.slot with config := s'.slot.config }) ∧
      s'.slot.intent = none := by
  have hintends := intends_of_pending h
  have hfinish : outcome (fun _ => Finished P image I) (fun _ s => Sound P image s ∧ w.binding P id I.config ≠ .ok ())
      (Fallible.run (finish P image w id I) s).1 (Fallible.run (finish P image w id I) s).2 := (triple_finish s h).run
  rcases hv : Fallible.run (finish P image w id I) s with ⟨e | ⟨⟩, s'⟩
  · rw [hv] at hfinish
    exact absurd hbound hfinish.2
  rw [hv] at hfinish
  refine ⟨s', rfl, ?_, by rw [slot, hfinish.intent]; rfl⟩
  obtain ⟨c, hc, hconfig⟩ := hintends.config
  have hwritten : s'.slot.config = some I.config.text := by rw [slot, hfinish.config.1]; rfl
  have hread : s.slot.readConfig = .ok c := by
    rw [Slot.readConfig, slot, hc.1]
    exact hc.2
  have hsame : c.id = I.config.id ∧ c.root = I.config.root ∧ c.identity = I.config.identity ∧ c.marker = I.config.marker ∧
      c.mode = I.config.mode ∧ c.peers = I.config.peers := by
    rw [hconfig]
    exact ⟨rfl, rfl, rfl, rfl, rfl, rfl⟩
  have hintent : s.slot.intent = some I.config := by rw [slot, hintends.intent]; rfl
  rw [World.finishSlot, hintent]
  dsimp only
  rw [hwritten]
  exact bind_eq_ok.mpr ⟨(), ensure_eq_ok.mpr hintends.epoch, bind_eq_ok.mpr ⟨(), hbound, bind_eq_ok.mpr ⟨c, hread,
    ensure_bind_eq_ok.mpr ⟨hsame, bind_eq_ok.mpr ⟨(), rfl, by rw [← hintent]; rfl⟩⟩⟩⟩⟩

theorem rootPath_epoch (c : Registration) (epoch : String) : ({ c with epoch := epoch } : Registration).rootPath = c.rootPath :=
  rfl

/-- Once the share has one generation, a folder and a device that are there let it open. -/
theorem run_openIndex {s' : IndexDir} {c : Registration} (hresume : Fallible.run (resume P image w id) s = (.ok (), s'))
    (hsettled : Settled s') (hc : s'.Registered c) (hbound : w.binding P id c = .ok ()) (hdir : w.isDir c.rootPath = true) :
    Fallible.run (openIndex P image w id (.ok ())) s = (.ok c, s') := by
  obtain ⟨c', i, d, hc', hi, hd, hepoch⟩ := hsettled.paired
  obtain rfl := hc.unique hc'
  obtain ⟨hid, hbound⟩ := ensure_bind_eq_ok.mp hbound
  obtain ⟨der, hder, hbound⟩ := bind_eq_ok.mp hbound
  obtain ⟨hidentity, hmarker⟩ := ensure_bind_eq_ok.mp hbound
  have hroot : checkRoot w c = .ok () := by
    rw [checkRoot, ensure_bind_eq_ok]
    refine ⟨hdir, ?_⟩
    cases hm : w.marker c.rootPath with
    | none =>
      rw [hm] at hmarker
      cases hmarker
    | some marker =>
      rw [hm] at hmarker
      exact ensure_eq_ok.mpr (ensure_eq_ok.mp hmarker)
  rw [openIndex, Fallible.run_bind, hresume]
  dsimp only
  rw [readConfig, Fallible.run_bind, Fallible.run_act, hc.configOf]
  simp only
  rw [Fallible.lift_eq, Fallible.run_bind, Fallible.run_ofExcept, ensure, if_pos hid]
  simp only
  rw [Fallible.lift_eq, Fallible.run_bind, Fallible.run_ofExcept, hder]
  simp only
  rw [Fallible.lift_eq, Fallible.run_bind, Fallible.run_ofExcept, ensure, if_pos hidentity]
  simp only
  rw [Fallible.run_bind, Fallible.run_act, hi]
  simp only [Option.elim_some]
  rw [Fallible.run_bind, Fallible.run_act, hd]
  simp only [quickCheck]
  rw [Fallible.lift_eq, Fallible.run_bind, Fallible.run_ofExcept, ensure, if_pos hepoch]
  simp only
  rw [Fallible.lift_eq, Fallible.run_bind, Fallible.run_ofExcept, hroot]
  rfl

/-- **Whatever recoveries were stopped, and wherever**: when the device and the folder of the share are there, and the folder's own
recovery succeeds, the share opens and has one complete generation: the one that it had if no intent was published, and the one of
the intent if it was, with nothing of the old index beside the new one. -/
theorem index_recovery (hhash : ∀ bytes, isHash (P.blake3 bytes) = true) (h : Reachable P image s)
    (hbound : ∀ c, s.Registered c → w.binding P id c = .ok () ∧ w.isDir c.rootPath = true) :
    ∃ c s', Fallible.run (openIndex P image w id (.ok ())) s = (.ok c, s') ∧ Settled s' ∧ s'.Registered c ∧ Holding s s' ∧
      (s.intent = none → s' = s) ∧ ∀ I, s.intent = some (.whole I) → Finished P image I s' := by
  have hsound := h.sound hhash
  obtain ⟨s', hrun, hsettled, hnone, hsome⟩ := run_resume hsound fun c hc => (hbound c hc).1
  obtain ⟨c, i, d, hc, -⟩ := hsettled.paired
  -- The configuration is of this folder, before and after.
  have hthere : w.binding P id c = .ok () ∧ w.isDir c.rootPath = true := by
    rcases hsound with hold | ⟨I, hI⟩
    · obtain rfl := hnone hold.intent
      exact hbound c hc
    · obtain ⟨c', hc', hconfig⟩ := (intends_of_pending hI).config
      have hfinished := hsome I (intends_of_pending hI).intent
      obtain rfl : I.config = c := hfinished.config.unique hc
      rw [hconfig, binding_epoch, rootPath_epoch]
      exact hbound c' hc'
  have hopen := run_openIndex hrun hsettled hc hthere.1 hthere.2
  have hreaches : Prog.Reaches (fun _ _ => False) (openIndex P image w id (.ok ())) s (.ret (.ok c)) s' := by
    have hr := Prog.reaches_run (fun _ _ => False) (openIndex P image w id (.ok ())) s
    change Prog.Reaches _ _ s (.ret (Fallible.run (openIndex P image w id (.ok ())) s).1)
      (Fallible.run (openIndex P image w id (.ok ())) s).2 at hr
    rwa [hopen] at hr
  exact ⟨c, s', hopen, hsettled, hc, (generations_kept hhash h).2 _ _ hreaches, hnone, hsome⟩

end

/-! ### A recovery that is stopped -/

/-- A folder. -/
def sampleConfig : Registration :=
  ⟨"a", "/a", Platform.padded.blake3 [], World.sampleDigest, World.sampleDigest, .bidirectional, ∅⟩

/-- An empty index. -/
def sampleDatabase : Database := ⟨⟨"1", World.sampleDigest, 0, [], [], []⟩, false⟩

/-- Its directory. -/
def sampleDir : IndexDir where
  file _ := .whole sampleDatabase
  fresh := 1
  live n := if n = .index then some 0 else none
  archive _ := none
  candidate _ := none
  config := some (.file sampleConfig.text)
  scratch := []
  staging _ := none
  intent := none

/-- The device. -/
def sampleWorld : World := { World.newDevice with marker := fun _ => some (utf8 World.sampleDigest.1) }

/-- The text of a database. -/
def sampleImage (d : Database) : Bytes := utf8 d.tables.epoch

/-- The next generation. -/
def nextDigest : Digest := ⟨Platform.padded.blake3 [1], Platform.padded_isHash [1]⟩

/-- A recovery after some steps. -/
def stoppedRecovery (n : ℕ) : IndexDir :=
  ((recover .padded sampleImage sampleWorld "a" (.ok (sampleConfig, sampleDatabase)) World.sampleDigest nextDigest).runFor n
    sampleDir).2

theorem registered_sampleDir : sampleDir.Registered sampleConfig := by
  have hvalid : sampleConfig.Valid :=
    ⟨by decide, Platform.padded_isHash _, World.sampleDigest.2, World.sampleDigest.2, by decide, fun _ h => by simp [sampleConfig] at h⟩
  have hpeers : sampleConfig.peers.size ≤ 128 := by decide
  exact ⟨rfl, (Registration.parse_text hvalid).mpr ⟨hpeers, Registration.length_text_le hvalid (by decide) hpeers⟩⟩

theorem settled_sampleDir : Settled sampleDir where
  intent := rfl
  paired := ⟨sampleConfig, 0, sampleDatabase, registered_sampleDir, rfl, rfl, rfl⟩
  wf i hi := by
    rcases hi with ⟨n, hn⟩ | ⟨nonce, n, hn⟩
    · change (if n = .index then some 0 else none) = some i at hn
      split_ifs at hn
      obtain rfl : 0 = i := Option.some.inj hn
      exact Nat.zero_lt_one
    · cases hn

theorem reachable_stoppedRecovery (n : ℕ) : Reachable .padded sampleImage (stoppedRecovery n) :=
  (Reachable.start settled_sampleDir).recovered (Prog.reaches_runFor _ n _ _)

/-- The old index has been moved aside and the new one has no name yet. -/
theorem index_recovery_stopped : (stoppedRecovery 22).live .index = none ∧
    ∃ c s', Fallible.run (openIndex .padded sampleImage sampleWorld "a" (.ok ())) (stoppedRecovery 22) = (.ok c, s') ∧
      Settled s' ∧ s'.Registered c ∧ Holding (stoppedRecovery 22) s' := by
  have hconfig : (stoppedRecovery 22).config = sampleDir.config := by decide +kernel
  have hregistered : (stoppedRecovery 22).Registered sampleConfig := ⟨hconfig, registered_sampleDir.2⟩
  have hbound : ∀ c, (stoppedRecovery 22).Registered c →
      sampleWorld.binding .padded "a" c = .ok () ∧ sampleWorld.isDir c.rootPath = true := fun c hc => by
    obtain rfl := hc.unique hregistered
    exact ⟨by decide +kernel, by decide +kernel⟩
  obtain ⟨c, s', hrun, hsettled, hc, hheld, -⟩ :=
    index_recovery Platform.padded_isHash (reachable_stoppedRecovery 22) hbound
  exact ⟨by decide +kernel, c, s', hrun, hsettled, hc, hheld⟩

theorem generations_kept_stopped : Holding sampleDir (stoppedRecovery 22) := by
  have hr : Prog.Reaches (fun _ _ => False) (recover .padded sampleImage sampleWorld "a" (.ok (sampleConfig, sampleDatabase))
      World.sampleDigest nextDigest) sampleDir _ (stoppedRecovery 22) := Prog.reaches_runFor _ 22 _ _
  exact (generations_kept Platform.padded_isHash (Reachable.start settled_sampleDir)).1 _ _ _ _ hr

end IndexDir

end Everywhere
