import Everywhere.Share.Reachable

/-!
# Agreement

Two devices hold the same folder, and each has its own index, grown from its own edits and from what its peers have sent, in any
order. What they keep of a path are revisions, and which one stands in the folder is decided by each device alone.

* `shares_agree` — **who has heard of the same shows the same**: when every revision that one device keeps of a path is kept by
  the other one, or is before one that is, and the other way round, then both have the same version set, with the same conflicts
  and the same selected revision, and where both have brought the path to it, the same content stands in both folders.
-/

namespace Everywhere

open Library

namespace Index

/-- What an index keeps of a path is kept by another one, or is before something that is. -/
def Covers (i j : Index) (path : String) : Prop :=
  ∀ e ∈ j.history, e.path = path →
    ∃ e' ∈ i.history, e'.path = path ∧ (e'.revision = e.revision ∨ e.revision.clock.relation e'.revision.clock = .before)

theorem Covers.refl (i : Index) (path : String) : i.Covers i path := fun e he hp => ⟨e, he, hp, .inl rfl⟩

theorem Covers.revisions_le {i j : Index} {path : String} (h : i.Covers j path) :
    lowerClosure (j.revisions path) ≤ lowerClosure (i.revisions path) := by
  rw [lowerClosure_le]
  rintro r ⟨e, he, hp, rfl⟩
  obtain ⟨e', he', hp', hle⟩ := h e he hp
  refine ⟨e'.revision, ⟨e', he', hp', rfl⟩, ?_⟩
  rcases hle with heq | hbefore
  · exact heq ▸ le_rfl
  · exact (Revision.lt_iff.mpr (Clock.relation_eq_before.mp hbefore)).le

/-- The version set of a path knows what is kept of it. -/
theorem Kept.known {P : Platform} {i : Index} (h : i.Kept P) {path : String} {l : Row} (hl : i.entries[path]? = some l) :
    l.versions.known = lowerClosure (i.revisions path) := by
  rw [Versions.known, h.heads path l hl, lowerClosure_frontier (finite_revisions i path)]

/-- Indexes that cover each other have the same version set. -/
theorem versions_eq_of_covers {P : Platform} {i j : Index} (hi : i.Wf P) (hj : j.Wf P) (hik : i.Kept P) (hjk : j.Kept P)
    {path : String} {l l' : Row} (hl : i.entries[path]? = some l) (hl' : j.entries[path]? = some l') (hij : i.Covers j path)
    (hji : j.Covers i path) : l.versions = l'.versions := by
  refine (hi.rows path l hl).versions.ext (hj.rows path l' hl').versions ?_
  rw [hik.known hl, hjk.known hl']
  exact le_antisymm hji.revisions_le hij.revisions_le

end Index

namespace Share

/-- **Who has heard of the same shows the same.** Whatever two devices have done, and whatever their peers have sent: when each
keeps of a path what the other one keeps, or what is after it, they have the same version set, and where both have seen
everything, the same content stands in the folders. -/
theorem shares_agree (P : Platform) (hid : Function.Injective (Revision.id P)) {β γ : Type} (W : Wire β) (W' : Wire γ)
    (s : Share β) (t : Share γ) (hs : Reachable P W s) (ht : Reachable P W' t) (path : String) (l l' : Row)
    (hl : s.index.entries[path]? = some l) (hl' : t.index.entries[path]? = some l') (hst : s.index.Covers t.index path)
    (hts : t.index.Covers s.index path) :
    l.versions = l'.versions ∧ l.versions.selected P = l'.versions.selected P ∧
      (l.observed = l.versions → l'.observed = l'.versions → l.materialized = l'.materialized) := by
  obtain ⟨hwf, hkept, -⟩ := hs.kept hid
  obtain ⟨hwf', hkept', -⟩ := ht.kept hid
  have heq : l.versions = l'.versions := Index.versions_eq_of_covers hwf hwf' hkept hkept' hl hl' hst hts
  refine ⟨heq, by rw [heq], fun hall hall' => ?_⟩
  -- What stands in a folder that is up to date is decided by the version set.
  rw [(hwf.rows path l hl).visible hall, (hwf'.rows path l' hl').visible hall', heq]

/-- Another device, to which the index of `scanned` was brought. -/
def imported : Share Unit :=
  { fresh with
    index := scanned.index.restore "f" true
    config := ⟨"folder", "another", "f", "marker", .receiveOnly, ["peer"]⟩ }

theorem reachable_imported : Reachable .sample silent imported := .import_ reachable_scanned ⟨rfl, rfl⟩ rfl

theorem shares_agree_imported : ∃ l l' : Row, scanned.index.entries["d"]? = some l ∧ imported.index.entries["d"]? = some l' ∧
    l.versions = l'.versions := by
  obtain ⟨l, hl⟩ := Option.isSome_iff_exists.mp (show scanned.index.entries["d"]?.isSome = true by decide +kernel)
  obtain ⟨l', hl'⟩ := Option.isSome_iff_exists.mp (show imported.index.entries["d"]?.isSome = true by decide +kernel)
  have hagree := shares_agree .sample (Revision.id_injective Platform.sample_blake3_injective) silent silent scanned imported
    reachable_scanned reachable_imported "d" l l' hl hl' (Index.Covers.refl scanned.index "d") (Index.Covers.refl scanned.index "d")
  exact ⟨l, l', hl, hl', hagree.1⟩

end Share

end Everywhere
