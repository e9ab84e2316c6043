import Everywhere.Device.Registry

/-!
# Creations at one time

A creation holds the guard of the device, but the guard is shared: any number of creations may hold it. So their steps
interleave. A creation lists the registered shares, reads the configuration of each, and makes its own directory later;
what another creation has reserved since the listing, it does not see.

`advance` is a step of a creation, which is a crash or an error of the system away from its end at any time (`Step.stop`).
`Safe` is what a step has to fulfil.

* `creations_apart` — **registered folders are apart**, if no folder that is in this one, or that contains it, was reserved
  between a listing and the reservation that follows it.
-/

namespace Everywhere

open Library Function

/-- What is to be created. -/
structure Request where
  /-- The name of the share. -/
  id : String
  /-- The folder. -/
  root : FilePath
  /-- The mode. -/
  mode : Mode
  /-- The content of the marker. -/
  marker : Digest
  /-- The name of the generation. -/
  epoch : Digest

/-- How far a creation is. -/
inductive Stage where
  /-- It has not begun. -/
  | idle
  /-- It holds the guard. -/
  | guarded
  /-- It has listed the shares, and has to read some of their configurations. -/
  | listing (listed rest : List String)
  /-- All checks are made. -/
  | checked (listed : List String)
  /-- It has made its directory. -/
  | reserved
  /-- It writes the marker. -/
  | marking (rest : Bytes)
  /-- It has read the certificate of the device. -/
  | identified (der : Bytes)
  /-- It has made the directory of the objects. -/
  | stocked (der : Bytes)
  /-- It writes the configuration. -/
  | writing (rest : Bytes)
  /-- It has made the index. -/
  | written
  /-- It has opened the share. -/
  | done
  /-- It has failed, after it made its directory and its marker, or before. -/
  | failed (made marked : Bool)
  deriving DecidableEq

namespace Stage

/-- It has made its directory. -/
def made : Stage → Bool
  | idle | guarded | listing .. | checked _ => false
  | failed made _ => made
  | _ => true

/-- It has made its marker. -/
def marked : Stage → Bool
  | idle | guarded | listing .. | checked _ | reserved => false
  | failed _ marked => marked
  | _ => true

/-- It is going to write into its directory. -/
def Owns : Stage → Prop
  | reserved | marking _ | identified _ | stocked _ | writing _ => True
  | _ => False

/-- It has stopped. -/
def stopped (p : Stage) : Stage := .failed p.made p.marked

end Stage

namespace World

/-- The checks of a request by itself. -/
def admissible (w : World) (q : Request) : Result Unit := do
  validId q.id
  w.canonicalize q.root
  ensure (¬ Overlap q.root w.state) "state and share roots must not overlap"

/-- The check of one registered share. -/
def readApart (w : World) (k : String) (root : FilePath) : Result Unit :=
  match w.shares[k]? with
  | none => .error (.io .notFound)
  | some slot => do
    let config ← slot.readConfig
    ensure (¬ Overlap root config.rootPath) "share roots must not overlap"

/-- The checks before the directory is made. -/
def vacant (w : World) (q : Request) : Result Unit := do
  ensure (q.id ∉ w.shares) "share already exists"
  ensure (w.marker q.root = none) "share root already contains a folder marker"

/-- A share is registered. -/
def Registered (w : World) (k : String) (c : Registration) : Prop :=
  ∃ slot, w.shares[k]? = some slot ∧ slot.readConfig = .ok c

/-- Registered folders are apart from each other and from the state. -/
def Apart (w : World) : Prop :=
  (∀ k k' c c', k ≠ k' → w.Registered k c → w.Registered k' c' → ¬ Overlap c.rootPath c'.rootPath) ∧
    ∀ k c, w.Registered k c → ¬ Overlap c.rootPath w.state

end World

/-- Go on, or fail. -/
def proceed {α : Type} (stage : Stage) (next : α → Stage) : Result α × World → Stage × World
  | (.ok a, w) => (next a, w)
  | (.error _, w) => (stage.stopped, w)

/-- The text of the configuration. -/
def Request.text (P : Platform) (q : Request) (der : Bytes) : Bytes :=
  (World.initial P q.id q.root q.mode q.marker q.epoch der).text

/-- A step of a creation. Another operation may hold the guard by itself. -/
def advance (P : Platform) (exclusive : Bool) (q : Request) (w : World) (stage : Stage) : Stage × World :=
  match stage with
  | .idle => if exclusive then (stage.stopped, w) else (.guarded, w)
  | .guarded => proceed stage (fun _ => .listing w.shares.keys w.shares.keys) (w.admissible q, w)
  | .listing listed (k :: rest) => proceed stage (fun _ => .listing listed rest) (w.readApart k q.root, w)
  | .listing listed [] => proceed stage (fun _ => .checked listed) (w.vacant q, w)
  | .checked _ => proceed stage (fun _ => .reserved) (w.makeDirectory q.id)
  | .reserved => proceed stage (fun _ => .marking (utf8 q.marker)) (w.makeMarker q.root)
  | .marking (b :: rest) => proceed stage (fun _ => .marking rest) (w.appendMarker q.root b)
  | .marking [] => proceed stage (fun der => .identified der) w.readIdentity
  | .identified der =>
    proceed stage (fun _ => .stocked der) (w.change q.id fun slot => .ok { slot with objects := true })
  | .stocked der => proceed stage (fun _ => .writing (q.text P der)) (w.change q.id World.newConfig)
  | .writing (b :: rest) => proceed stage (fun _ => .writing rest) (w.change q.id (World.appendConfig b))
  | .writing [] => proceed stage (fun _ => .written) (w.change q.id fun slot => .ok { slot with index := true })
  | .written => proceed stage (fun _ => .done) (w.openShare P q.id, w)
  | .done | .failed _ _ => (stage, w)

/-- Some creations on one device. -/
structure Creations (ι : Type) where
  /-- The device. -/
  world : World
  /-- Another operation holds the guard by itself. -/
  exclusive : Bool
  /-- How far the creations are. -/
  stage : ι → Stage

namespace Creations

variable {ι : Type}

/-- One creation goes on. -/
def advanced [DecidableEq ι] (P : Platform) (requests : ι → Request) (s : Creations ι) (i : ι) : Creations ι :=
  let r := advance P s.exclusive (requests i) s.world (s.stage i)
  { s with world := r.2, stage := update s.stage i r.1 }

/-- What a creation that makes its directory must not meet: the directory of another one, made since the shares were listed,
of a folder that is in its own one or contains it. -/
def Safe (requests : ι → Request) (s : Creations ι) (i : ι) : Prop :=
  ∀ listed, s.stage i = .checked listed → ∀ j, j ≠ i → (s.stage j).made = true → (requests j).id ∉ listed →
    Overlap (requests i).root (requests j).root → (requests i).root = (requests j).root

/-- A step that fulfils a condition. -/
inductive Step [DecidableEq ι] (P : Platform) (requests : ι → Request) (ok : Creations ι → ι → Prop) :
    Creations ι → Creations ι → Prop where
  /-- A creation goes on. -/
  | advance {s : Creations ι} (i : ι) (h : ok s i) : Step P requests ok s (s.advanced P requests i)
  /-- A creation stops. -/
  | stop {s : Creations ι} (i : ι) : Step P requests ok s { s with stage := update s.stage i (s.stage i).stopped }

/-- No creation has begun. -/
def Initial (s : Creations ι) : Prop := ∀ i, s.stage i = .idle

/-! ### What holds in every run -/

/-- What a creation knows. -/
def Fits (P : Platform) (start : World) (plan : String → Option FilePath) (q : Request) (w : World) : Stage → Prop
  | .listing listed rest => (Real q.root ∧ ¬ Overlap q.root start.state) ∧ (∀ k ∈ start.shares, k ∈ listed) ∧
    ∀ k ∈ listed, k ∈ rest ∨ ∃ r, plan k = some r ∧ ¬ Overlap q.root r
  | .checked listed => (Real q.root ∧ ¬ Overlap q.root start.state) ∧ (∀ k ∈ start.shares, k ∈ listed) ∧
    ∀ k ∈ listed, ∃ r, plan k = some r ∧ ¬ Overlap q.root r
  | .reserved | .marking _ | .identified _ | .stocked _ =>
    Real q.root ∧ ∃ slot, w.shares[q.id]? = some slot ∧ slot.config = none
  | .writing rest =>
    Real q.root ∧ ∃ slot p der, w.shares[q.id]? = some slot ∧ slot.config = some p ∧ p ++ rest = q.text P der
  | _ => True

/-- What holds of some creations, for the folders for which the directories were made. -/
structure Sound (P : Platform) (requests : ι → Request) (start : World) (plan : String → Option FilePath)
    (s : Creations ι) : Prop where
  /-- The state stays where it is. -/
  state : s.world.state = start.state
  /-- What is registered is what was planned, and not without a marker. -/
  read : ∀ k c, s.world.Registered k c → plan k = some c.rootPath ∧
    (k ∈ start.shares ∨ ∃ j, (requests j).id = k ∧ (s.stage j).marked = true)
  /-- Planned folders are apart, or the same. -/
  apart : ∀ k k' r r', k ≠ k' → plan k = some r → plan k' = some r' → Overlap r r' →
    r = r' ∧ k ∉ start.shares ∧ k' ∉ start.shares
  /-- They are apart from the state. -/
  outside : ∀ k r, plan k = some r → ¬ Overlap r start.state
  /-- Their directories are there. -/
  known : ∀ k r, plan k = some r → k ∈ s.world.shares
  /-- No directory is removed. -/
  kept : ∀ k ∈ start.shares, k ∈ s.world.shares
  /-- Every directory was there or was made by a creation. -/
  added : ∀ k ∈ s.world.shares, k ∈ start.shares ∨ ∃ j, (requests j).id = k ∧ (s.stage j).made = true
  /-- The creations know what they should. -/
  fits : ∀ i, Fits P start plan (requests i) s.world (s.stage i)
  /-- They write into directories of their own. -/
  owners : ∀ i j, i ≠ j → (s.stage i).Owns → (s.stage j).Owns → (requests i).id ≠ (requests j).id
  /-- A directory is made for the folder. -/
  made : ∀ i, (s.stage i).made = true → plan (requests i).id = some (requests i).root
  /-- A marker stays. -/
  marked : ∀ i, (s.stage i).marked = true → (s.stage i).made = true ∧ s.world.marker (requests i).root ≠ none
  /-- A folder has one marker. -/
  single : ∀ i j, i ≠ j → (s.stage i).marked = true → (s.stage j).marked = true → (requests i).root ≠ (requests j).root

variable {P : Platform} {requests : ι → Request} {start : World} {plan : String → Option FilePath} {s : Creations ι}

/-- **Registered folders are apart.** -/
theorem Sound.registered (h : Sound P requests start plan s) : s.world.Apart := by
  constructor
  · intro k k' c c' hne hc hc' hoverlap
    obtain ⟨hplan, hk⟩ := h.read k c hc
    obtain ⟨hplan', hk'⟩ := h.read k' c' hc'
    obtain ⟨hsame, hnew, hnew'⟩ := h.apart k k' _ _ hne hplan hplan' hoverlap
    obtain ⟨j, rfl, hj⟩ := hk.resolve_left hnew
    obtain ⟨j', rfl, hj'⟩ := hk'.resolve_left hnew'
    have hjj : j ≠ j' := fun hjj => hne (by rw [hjj])
    refine h.single j j' hjj hj hj' ?_
    have hroot := (h.made j (h.marked j hj).1).symm.trans hplan
    have hroot' := (h.made j' (h.marked j' hj').1).symm.trans hplan'
    rw [Option.some.inj hroot, Option.some.inj hroot', hsame]
  · intro k c hc
    rw [h.state]
    exact h.outside k _ (h.read k c hc).1

/-- What a creation knows stays, when others do not change its directory and more is planned. -/
theorem Fits.mono {plan' : String → Option FilePath} {q : Request} {w w' : World} {stage : Stage}
    (h : Fits P start plan q w stage) (hplan : ∀ k r, plan k = some r → plan' k = some r)
    (hslot : stage.Owns → w'.shares[q.id]? = w.shares[q.id]?) : Fits P start plan' q w' stage := by
  cases stage with
  | listing listed rest =>
    obtain ⟨hq, hall, hread⟩ := h
    refine ⟨hq, hall, ?_⟩
    intro k hk
    exact (hread k hk).imp id fun ⟨r, hr, hapart⟩ => ⟨r, hplan k r hr, hapart⟩
  | checked listed =>
    obtain ⟨hq, hall, hread⟩ := h
    refine ⟨hq, hall, ?_⟩
    intro k hk
    obtain ⟨r, hr, hapart⟩ := hread k hk
    exact ⟨r, hplan k r hr, hapart⟩
  | reserved | marking rest | identified der | stocked der =>
    obtain ⟨hreal, slot, hs, hconfig⟩ := h
    exact ⟨hreal, slot, (hslot trivial).trans hs, hconfig⟩
  | writing rest =>
    obtain ⟨hreal, slot, p, der, hs, hconfig, htext⟩ := h
    exact ⟨hreal, slot, p, der, (hslot trivial).trans hs, hconfig, htext⟩
  | _ => trivial

/-- The folders that are registered. -/
def planned (w : World) (k : String) : Option FilePath :=
  w.shares[k]?.bind fun slot => slot.readConfig.toOption.map Registration.rootPath

theorem sound_initial (hinitial : Initial s) (hapart : s.world.Apart) :
    Sound P requests s.world (planned s.world) s := by
  have hplanned : ∀ k r, planned s.world k = some r → ∃ c, s.world.Registered k c ∧ c.rootPath = r := by
    intro k r hr
    obtain ⟨slot, hslot, hr⟩ := Option.bind_eq_some_iff.mp hr
    obtain ⟨c, hc, hroot⟩ := Option.map_eq_some_iff.mp hr
    refine ⟨c, ⟨slot, hslot, ?_⟩, hroot⟩
    cases hread : slot.readConfig with
    | error e =>
      rw [hread] at hc
      cases hc
    | ok c' =>
      rw [hread] at hc
      rw [Option.some.inj hc]
  have hmem : ∀ k c, s.world.Registered k c → k ∈ s.world.shares := by
    rintro k c ⟨slot, hslot, -⟩
    rw [Std.ExtTreeMap.mem_iff_isSome_getElem?, hslot]
    rfl
  refine ⟨rfl, ?_, ?_, ?_, ?_, fun _ hk => hk, fun _ => .inl, ?_, ?_, ?_, ?_, ?_⟩
  · rintro k c ⟨slot, hslot, hc⟩
    refine ⟨?_, .inl (hmem k c ⟨slot, hslot, hc⟩)⟩
    rw [planned, hslot, Option.bind_some, hc]
    rfl
  · intro k k' r r' hkk hr hr' hoverlap
    obtain ⟨c, hc, rfl⟩ := hplanned k r hr
    obtain ⟨c', hc', rfl⟩ := hplanned k' r' hr'
    exact absurd hoverlap (hapart.1 k k' c c' hkk hc hc')
  · intro k r hr
    obtain ⟨c, hc, rfl⟩ := hplanned k r hr
    exact hapart.2 k c hc
  · intro k r hr
    obtain ⟨c, hc, -⟩ := hplanned k r hr
    exact hmem k c hc
  · intro i
    rw [hinitial i]
    trivial
  · intro i j _ hi
    rw [hinitial i] at hi
    exact hi.elim
  · intro i hi
    rw [hinitial i] at hi
    cases hi
  · intro i hi
    rw [hinitial i] at hi
    cases hi
  · intro i j _ hi
    rw [hinitial i] at hi
    cases hi

variable [DecidableEq ι]

/-- A creation that has its directory goes on, or one that has not goes on without it. -/
structure Kept (P : Platform) (requests : ι → Request) (start : World) (plan : String → Option FilePath) (s : Creations ι)
    (i : ι) (w' : World) (stage' : Stage) : Prop where
  /-- The state stays where it is. -/
  state : w'.state = s.world.state
  /-- No directory is made or removed. -/
  mem : ∀ k, k ∈ w'.shares ↔ k ∈ s.world.shares
  /-- What is in another directory stays. -/
  other : ∀ k, k ≠ (requests i).id → w'.shares[k]? = s.world.shares[k]?
  /-- So does what is in the directory of the name, unless it is the own one. -/
  own : (s.stage i).Owns ∨ w'.shares = s.world.shares
  /-- What is there is what was planned. -/
  read : ∀ c, w'.Registered (requests i).id c → plan (requests i).id = some c.rootPath ∧
    ((requests i).id ∈ start.shares ∨ ∃ j, (requests j).id = (requests i).id ∧ (update s.stage i stage' j).marked = true)
  /-- Markers stay. -/
  marker : ∀ r, s.world.marker r ≠ none → w'.marker r ≠ none
  /-- The creation knows what it should. -/
  fits : Fits P start plan (requests i) w' stage'
  /-- It takes no directory. -/
  owns : stage'.Owns → (s.stage i).Owns
  /-- It makes no directory. -/
  made : stage'.made = (s.stage i).made
  /-- It may make a marker. -/
  marked : stage'.marked = (s.stage i).marked ∨ (s.stage i).made = true ∧ stage'.marked = true ∧
    s.world.marker (requests i).root = none ∧ w'.marker (requests i).root ≠ none

theorem Sound.keep (h : Sound P requests start plan s) {i : ι} {w' : World} {stage' : Stage}
    (hk : Kept P requests start plan s i w' stage') :
    Sound P requests start plan { s with world := w', stage := update s.stage i stage' } := by
  have hmade : ∀ j, (update s.stage i stage' j).made = (s.stage j).made := by
    intro j
    by_cases hj : j = i
    · subst hj
      rw [update_self, hk.made]
    · rw [update_of_ne hj]
  have hmarked : ∀ j, (s.stage j).marked = true → (update s.stage i stage' j).marked = true := by
    intro j hj
    by_cases hji : j = i
    · subst hji
      rw [update_self]
      rcases hk.marked with heq | hnew
      · rw [heq, hj]
      · exact hnew.2.1
    · rwa [update_of_ne hji]
  have howns : ∀ j, (update s.stage i stage' j).Owns → (s.stage j).Owns := by
    intro j hj
    by_cases hji : j = i
    · subst hji
      rw [update_self] at hj
      exact hk.owns hj
    · rwa [update_of_ne hji] at hj
  refine ⟨hk.state.trans h.state, ?_, h.apart, h.outside, ?_, ?_, ?_, ?_, ?_, ?_, ?_, ?_⟩
  · intro k c hc
    by_cases hki : k = (requests i).id
    · subst hki
      exact hk.read c hc
    · obtain ⟨slot, hslot, hread⟩ := hc
      obtain ⟨hplan, hfrom⟩ := h.read k c ⟨slot, (hk.other k hki).symm.trans hslot, hread⟩
      exact ⟨hplan, hfrom.imp id fun ⟨j, hj, hm⟩ => ⟨j, hj, hmarked j hm⟩⟩
  · exact fun k r hr => (hk.mem k).mpr (h.known k r hr)
  · exact fun k hkk => (hk.mem k).mpr (h.kept k hkk)
  · intro k hkk
    exact (h.added k ((hk.mem k).mp hkk)).imp id fun ⟨j, hj, hm⟩ => ⟨j, hj, (hmade j).trans hm⟩
  · intro j
    dsimp only
    by_cases hji : j = i
    · subst hji
      rw [update_self]
      exact hk.fits
    · rw [update_of_ne hji]
      refine (h.fits j).mono (fun k r hr => hr) fun hj => ?_
      rcases hk.own with hown | hsame
      · exact hk.other _ (h.owners j i hji hj hown)
      · rw [hsame]
  · exact fun j j' hjj hj hj' => h.owners j j' hjj (howns j hj) (howns j' hj')
  · exact fun j hj => h.made j ((hmade j).symm.trans hj)
  · intro j hj
    dsimp only at hj ⊢
    by_cases hji : j = i
    · subst hji
      rw [update_self] at hj ⊢
      rcases hk.marked with heq | ⟨hm, -, -, hmarker⟩
      · obtain ⟨hm, hmarker⟩ := h.marked j (heq.symm.trans hj)
        exact ⟨hk.made.trans hm, hk.marker _ hmarker⟩
      · exact ⟨hk.made.trans hm, hmarker⟩
    · rw [update_of_ne hji] at hj ⊢
      exact ⟨(h.marked j hj).1, hk.marker _ (h.marked j hj).2⟩
  · -- a marker that is made is the first one in its folder
    have hfirst : ∀ j, j ≠ i → (s.stage j).marked = true → stage'.marked = true → (requests i).root ≠ (requests j).root := by
      intro j hji hj hi hroot
      rcases hk.marked with heq | ⟨-, -, hnone, -⟩
      · exact h.single i j (Ne.symm hji) (heq.symm.trans hi) hj hroot
      · exact (h.marked j hj).2 (hroot ▸ hnone)
    intro j j' hjj hj hj'
    dsimp only at hj hj'
    by_cases hji : j = i
    · subst hji
      rw [update_self] at hj
      rw [update_of_ne (Ne.symm hjj)] at hj'
      exact hfirst j' (Ne.symm hjj) hj' hj
    · rw [update_of_ne hji] at hj
      by_cases hji' : j' = i
      · subst hji'
        rw [update_self] at hj'
        exact Ne.symm (hfirst j hji hj hj')
      · rw [update_of_ne hji'] at hj'
        exact h.single j j' hjj hj hj'

/-- Nothing is changed but the stage. -/
theorem Sound.quiet (h : Sound P requests start plan s) {i : ι} {w' : World} {stage' : Stage}
    (hshares : w'.shares = s.world.shares) (hstate : w'.state = s.world.state)
    (hmarker : ∀ r, s.world.marker r ≠ none → w'.marker r ≠ none)
    (hfits : Fits P start plan (requests i) s.world stage') (howns : stage'.Owns → (s.stage i).Owns)
    (hmade : stage'.made = (s.stage i).made)
    (hmarked : stage'.marked = (s.stage i).marked ∨ (s.stage i).made = true ∧ stage'.marked = true ∧
      s.world.marker (requests i).root = none ∧ w'.marker (requests i).root ≠ none) :
    Sound P requests start plan { s with world := w', stage := update s.stage i stage' } := by
  refine h.keep ⟨hstate, fun k => by rw [hshares], fun k _ => by rw [hshares], .inr hshares, ?_, hmarker, ?_, howns, hmade,
    hmarked⟩
  · rintro c ⟨slot, hslot, hread⟩
    rw [hshares] at hslot
    obtain ⟨hplan, hfrom⟩ := h.read _ c ⟨slot, hslot, hread⟩
    refine ⟨hplan, hfrom.imp id ?_⟩
    rintro ⟨j, hj, hm⟩
    refine ⟨j, hj, ?_⟩
    by_cases hji : j = i
    · subst hji
      rw [update_self]
      rcases hmarked with heq | hnew
      · rw [heq, hm]
      · exact hnew.2.1
    · rwa [update_of_ne hji]
  · exact hfits.mono (fun k r hr => hr) fun _ => by rw [hshares]

/-- A creation stops. -/
theorem Sound.stop (h : Sound P requests start plan s) (i : ι) :
    Sound P requests start plan { s with world := s.world, stage := update s.stage i (s.stage i).stopped } :=
  h.quiet rfl rfl (fun _ => id) trivial (fun howns => howns.elim) rfl (.inl rfl)

/-- What is written is what was planned. -/
theorem rootPath_of_parse {q : Request} {der p rest : Bytes} {c : Registration} (hreal : Real q.root)
    (htext : p ++ rest = q.text P der) (h : Registration.parse p = .ok c) : c.rootPath = q.root := by
  have hwhole : rest = [] := by
    by_contra hrest
    exact Registration.parse_cut htext hrest c h
  rw [hwhole, List.append_nil] at htext
  obtain ⟨-, h⟩ := ensure_bind_eq_ok.mp h
  obtain ⟨c', hdecode, h⟩ := bind_eq_ok.mp h
  obtain rfl : c' = World.initial P q.id q.root q.mode q.marker q.epoch der := by
    rw [htext, Request.text, Registration.decode, Registration.text,
      Json.parse_pretty (Registration.depth_toJson _), Option.bind_some, Registration.ofJson_toJson] at hdecode
    exact (Except.ok.inj hdecode).symm
  obtain ⟨-, -, h⟩ := bind_eq_ok.mp h
  obtain ⟨-, -, h⟩ := bind_eq_ok.mp h
  obtain ⟨-, h⟩ := ensure_bind_eq_ok.mp h
  obtain ⟨-, h⟩ := ensure_bind_eq_ok.mp h
  obtain ⟨-, -, h⟩ := bind_eq_ok.mp h
  rw [← pure_eq_ok.mp h]
  exact World.initial_rootPath hreal

/-- The configuration of a request is read. -/
theorem parse_request {q : Request} {der : Bytes} (hplain : plainName q.id = true) (hreal : Real q.root)
    (hhash : isHash (P.blake3 der) = true) : ∃ c, Registration.parse (q.text P der) = .ok c ∧ c.rootPath = q.root :=
  ⟨World.initial P q.id q.root q.mode q.marker q.epoch der, World.parse_initial hplain hreal hhash,
    World.initial_rootPath hreal⟩

/-- A creation writes into its directory. -/
theorem Sound.change (h : Sound P requests start plan s) {i : ι} {slot slot' : Slot} {stage' : Stage}
    (hslot : s.world.shares[(requests i).id]? = some slot) (howns : (s.stage i).Owns) (hmade : (s.stage i).made = true)
    (hmade' : stage'.made = true) (hmarked : (s.stage i).marked = true) (hmarked' : stage'.marked = true)
    (hread : ∀ c, slot'.readConfig = .ok c → c.rootPath = (requests i).root)
    (hfits : Fits P start plan (requests i) { s.world with shares := s.world.shares.insert (requests i).id slot' } stage') :
    Sound P requests start plan { s with
      world := { s.world with shares := s.world.shares.insert (requests i).id slot' }
      stage := update s.stage i stage' } := by
  have hmem : (requests i).id ∈ s.world.shares := by
    rw [Std.ExtTreeMap.mem_iff_isSome_getElem?, hslot]
    rfl
  refine h.keep ⟨rfl, ?_, ?_, .inl howns, ?_, fun r => id, hfits, fun _ => howns, hmade'.trans hmade.symm,
    .inl (hmarked'.trans hmarked.symm)⟩
  · intro k
    rw [Std.ExtTreeMap.mem_insert]
    refine ⟨?_, .inr⟩
    rintro (heq | hk)
    · exact Std.LawfulEqCmp.eq_of_compare heq ▸ hmem
    · exact hk
  · intro k hk
    rw [Std.ExtTreeMap.getElem?_insert, if_neg]
    exact fun heq => hk (Std.LawfulEqCmp.eq_of_compare heq).symm
  · rintro c ⟨slot'', hslot'', hc⟩
    rw [Std.ExtTreeMap.getElem?_insert_self] at hslot''
    obtain rfl := Option.some.inj hslot''
    refine ⟨?_, .inr ⟨i, rfl, ?_⟩⟩
    · rw [hread c hc]
      exact h.made i hmade
    · rw [update_self, hmarked']

/-- The device when a creation has made its directory. -/
def reserve (requests : ι → Request) (s : Creations ι) (i : ι) : Creations ι :=
  { s with
    world := { s.world with shares := s.world.shares.insert (requests i).id ⟨none, none, false, false⟩ }
    stage := update s.stage i .reserved }

/-- What is planned when it has. -/
def planning (requests : ι → Request) (plan : String → Option FilePath) (i : ι) : String → Option FilePath :=
  update plan (requests i).id (some (requests i).root)

/-- A creation that owns a directory has made it. -/
theorem made_of_owns {stage : Stage} (h : stage.Owns) : stage.made = true := by
  cases stage with
  | reserved | marking _ | identified _ | stocked _ | writing _ => rfl
  | _ => exact h.elim

section reserve

variable {i : ι} {listed : List String}

omit [DecidableEq ι] in
/-- Nothing is planned for a name that is free. -/
theorem Sound.unplanned (h : Sound P requests start plan s) (hfresh : (requests i).id ∉ s.world.shares) :
    plan (requests i).id = none := by
  by_contra hsome
  obtain ⟨r, hr⟩ := Option.ne_none_iff_exists'.mp hsome
  exact hfresh (h.known _ r hr)

omit [DecidableEq ι] in
theorem Sound.planning_of (h : Sound P requests start plan s) (hfresh : (requests i).id ∉ s.world.shares) {k : String}
    {r : FilePath} (hr : plan k = some r) : planning requests plan i k = some r := by
  rw [planning, update_of_ne, hr]
  rintro rfl
  rw [h.unplanned hfresh] at hr
  cases hr

omit [DecidableEq ι] in
/-- Who has a directory has one of another name. -/
theorem Sound.id_ne_of_made (h : Sound P requests start plan s) (hfresh : (requests i).id ∉ s.world.shares) {j : ι}
    (hj : (s.stage j).made = true) : (requests j).id ≠ (requests i).id := by
  intro heq
  have hmade := h.made j hj
  rw [heq, h.unplanned hfresh] at hmade
  cases hmade

omit [DecidableEq ι] in
/-- A creation that has none yet is none of those that have. -/
theorem ne_of_made (hphase : s.stage i = .checked listed) {j : ι} (hj : (s.stage j).made = true) : j ≠ i := by
  rintro rfl
  rw [hphase] at hj
  cases hj

omit [DecidableEq ι] in
theorem ne_of_marked (hphase : s.stage i = .checked listed) {j : ι} (hj : (s.stage j).marked = true) : j ≠ i := by
  rintro rfl
  rw [hphase] at hj
  cases hj

omit [DecidableEq ι] in
/-- The new folder is apart from every planned one that it is not. -/
theorem Sound.apart_new (h : Sound P requests start plan s) (hphase : s.stage i = .checked listed)
    (hsafe : Safe requests s i) {k : String} {r : FilePath} (hr : plan k = some r) (hoverlap : Overlap (requests i).root r) :
    (requests i).root = r ∧ k ∉ start.shares := by
  have hfits := h.fits i
  rw [hphase] at hfits
  obtain ⟨-, hall, hread⟩ := hfits
  by_cases hk : k ∈ listed
  · obtain ⟨r', hr', hclear⟩ := hread k hk
    obtain rfl := Option.some.inj (hr.symm.trans hr')
    exact absurd hoverlap hclear
  · have hk' : k ∉ start.shares := fun hk' => hk (hall k hk')
    obtain ⟨j, rfl, hmade⟩ := (h.added k (h.known k r hr)).resolve_left hk'
    obtain rfl := Option.some.inj (hr.symm.trans (h.made j hmade))
    exact ⟨hsafe listed hphase j (ne_of_made hphase hmade) hmade hk hoverlap, hk'⟩

/-- What is registered stays so: a new directory holds no configuration. -/
theorem Sound.read_reserve (h : Sound P requests start plan s) (hphase : s.stage i = .checked listed)
    (hfresh : (requests i).id ∉ s.world.shares) {k : String} {c : Registration}
    (hc : (reserve requests s i).world.Registered k c) : planning requests plan i k = some c.rootPath ∧
      (k ∈ start.shares ∨ ∃ j, (requests j).id = k ∧ ((reserve requests s i).stage j).marked = true) := by
  obtain ⟨slot, hslot, hc⟩ := hc
  by_cases hk : k = (requests i).id
  · subst hk
    obtain rfl := Option.some.inj (Std.ExtTreeMap.getElem?_insert_self.symm.trans hslot)
    cases hc
  · have hslot' : s.world.shares[k]? = some slot := by
      refine Eq.trans ?_ hslot
      exact (Std.ExtTreeMap.getElem?_insert.trans (if_neg fun heq => hk (Std.LawfulEqCmp.eq_of_compare heq).symm)).symm
    obtain ⟨hplan, hfrom⟩ := h.read k c ⟨slot, hslot', hc⟩
    refine ⟨h.planning_of hfresh hplan, hfrom.imp id ?_⟩
    rintro ⟨j, hj, hm⟩
    exact ⟨j, hj, (congrArg Stage.marked (update_of_ne (ne_of_marked hphase hm) _ _)).trans hm⟩

omit [DecidableEq ι] in
/-- What is planned is apart. -/
theorem Sound.apart_reserve (h : Sound P requests start plan s) (hphase : s.stage i = .checked listed)
    (hsafe : Safe requests s i) (hfresh : (requests i).id ∉ s.world.shares) {k k' : String} {r r' : FilePath} (hkk : k ≠ k')
    (hr : planning requests plan i k = some r) (hr' : planning requests plan i k' = some r') (hoverlap : Overlap r r') :
    r = r' ∧ k ∉ start.shares ∧ k' ∉ start.shares := by
  have hstart : (requests i).id ∉ start.shares := fun hk => hfresh (h.kept _ hk)
  rw [planning] at hr hr'
  by_cases hk : k = (requests i).id
  · subst hk
    rw [update_self] at hr
    rw [update_of_ne (Ne.symm hkk)] at hr'
    obtain rfl := Option.some.inj hr
    obtain ⟨hsame, hnew⟩ := h.apart_new hphase hsafe hr' hoverlap
    exact ⟨hsame, hstart, hnew⟩
  · rw [update_of_ne hk] at hr
    by_cases hk' : k' = (requests i).id
    · subst hk'
      rw [update_self] at hr'
      obtain rfl := Option.some.inj hr'
      obtain ⟨hsame, hnew⟩ := h.apart_new hphase hsafe hr hoverlap.symm
      exact ⟨hsame.symm, hnew, hstart⟩
    · rw [update_of_ne hk'] at hr'
      exact h.apart k k' r r' hkk hr hr' hoverlap

/-- What the creations know stays. -/
theorem Sound.fits_reserve (h : Sound P requests start plan s) (hphase : s.stage i = .checked listed)
    (hfresh : (requests i).id ∉ s.world.shares) (j : ι) :
    Fits P start (planning requests plan i) (requests j) (reserve requests s i).world ((reserve requests s i).stage j) := by
  have hfits := h.fits i
  rw [hphase] at hfits
  rw [reserve]
  dsimp only
  by_cases hji : j = i
  · subst hji
    rw [update_self]
    exact ⟨hfits.1.1, _, Std.ExtTreeMap.getElem?_insert_self, rfl⟩
  · rw [update_of_ne hji]
    refine (h.fits j).mono (fun k r hr => h.planning_of hfresh hr) fun howns => ?_
    dsimp only
    rw [Std.ExtTreeMap.getElem?_insert, if_neg]
    exact fun heq => h.id_ne_of_made hfresh (made_of_owns howns) (Std.LawfulEqCmp.eq_of_compare heq).symm

/-- **A creation makes its directory.** -/
theorem Sound.reserve (h : Sound P requests start plan s) (hphase : s.stage i = .checked listed)
    (hsafe : Safe requests s i) (hfresh : (requests i).id ∉ s.world.shares) :
    Sound P requests start (planning requests plan i) (reserve requests s i) where
  state := h.state
  read k c hc := h.read_reserve hphase hfresh hc
  apart k k' r r' := h.apart_reserve hphase hsafe hfresh
  outside k r hr := by
    rw [planning] at hr
    by_cases hk : k = (requests i).id
    · subst hk
      rw [update_self] at hr
      obtain rfl := Option.some.inj hr
      have hfits := h.fits i
      rw [hphase] at hfits
      exact hfits.1.2
    · rw [update_of_ne hk] at hr
      exact h.outside k r hr
  known k r hr := by
    rw [planning] at hr
    refine Std.ExtTreeMap.mem_insert.mpr ?_
    by_cases hk : k = (requests i).id
    · exact .inl (by rw [hk]; exact Std.ReflCmp.compare_self)
    · rw [update_of_ne hk] at hr
      exact .inr (h.known k r hr)
  kept k hk := Std.ExtTreeMap.mem_insert.mpr (.inr (h.kept k hk))
  added k hk := by
    rcases Std.ExtTreeMap.mem_insert.mp hk with heq | hk
    · refine .inr ⟨i, Std.LawfulEqCmp.eq_of_compare heq, ?_⟩
      rw [Creations.reserve]
      dsimp only
      rw [update_self]
      rfl
    · refine (h.added k hk).imp id ?_
      rintro ⟨j, hj, hm⟩
      refine ⟨j, hj, ?_⟩
      rw [Creations.reserve]
      dsimp only
      rw [update_of_ne (ne_of_made hphase hm), hm]
  fits := h.fits_reserve hphase hfresh
  owners j j' hjj hj hj' := by
    rw [Creations.reserve] at hj hj'
    dsimp only at hj hj'
    by_cases hji : j = i
    · subst hji
      rw [update_of_ne (Ne.symm hjj)] at hj'
      exact Ne.symm (h.id_ne_of_made hfresh (made_of_owns hj'))
    · rw [update_of_ne hji] at hj
      by_cases hji' : j' = i
      · subst hji'
        exact h.id_ne_of_made hfresh (made_of_owns hj)
      · rw [update_of_ne hji'] at hj'
        exact h.owners j j' hjj hj hj'
  made j hj := by
    rw [Creations.reserve] at hj
    dsimp only at hj
    by_cases hji : j = i
    · subst hji
      rw [planning, update_self]
    · rw [update_of_ne hji] at hj
      exact h.planning_of hfresh (h.made j hj)
  marked j hj := by
    rw [Creations.reserve] at hj ⊢
    dsimp only at hj ⊢
    by_cases hji : j = i
    · subst hji
      rw [update_self] at hj
      cases hj
    · rw [update_of_ne hji] at hj ⊢
      exact h.marked j hj
  single j j' hjj hj hj' := by
    have hold : ∀ j, ((Creations.reserve requests s i).stage j).marked = true → (s.stage j).marked = true := by
      intro j hj
      rw [Creations.reserve] at hj
      dsimp only at hj
      by_cases hji : j = i
      · subst hji
        rw [update_self] at hj
        cases hj
      · rwa [update_of_ne hji] at hj
    exact h.single j j' hjj (hold j hj) (hold j' hj')

end reserve

/-! ### Steps and runs -/

/-- What a step does. -/
theorem advanced_eq {i : ι} {stage' : Stage} {w' : World}
    (h : advance P s.exclusive (requests i) s.world (s.stage i) = (stage', w')) :
    s.advanced P requests i = { s with world := w', stage := update s.stage i stage' } := by
  rw [advanced, h]

theorem Sound.advance_stop (h : Sound P requests start plan s) {i : ι}
    (hadv : Everywhere.advance P s.exclusive (requests i) s.world (s.stage i) = ((s.stage i).stopped, s.world)) :
    ∃ plan', Sound P requests start plan' (s.advanced P requests i) := by
  rw [advanced_eq hadv]
  exact ⟨plan, h.stop i⟩

/-- A creation takes the guard. -/
theorem Sound.advance_idle (h : Sound P requests start plan s) {i : ι} (hp : s.stage i = .idle) :
    ∃ plan', Sound P requests start plan' (s.advanced P requests i) := by
  by_cases hexclusive : s.exclusive = true
  · exact h.advance_stop (by rw [hp, Everywhere.advance, if_pos hexclusive])
  · have hadv : Everywhere.advance P s.exclusive (requests i) s.world (s.stage i) = (.guarded, s.world) := by
      rw [hp, Everywhere.advance, if_neg hexclusive]
    rw [advanced_eq hadv]
    exact ⟨plan, h.quiet rfl rfl (fun _ => id) trivial (fun ho => ho.elim) (by rw [hp]; rfl) (.inl (by rw [hp]; rfl))⟩

/-- It lists the shares. -/
theorem Sound.advance_guarded (h : Sound P requests start plan s) {i : ι} (hp : s.stage i = .guarded) :
    ∃ plan', Sound P requests start plan' (s.advanced P requests i) := by
  cases hr : s.world.admissible (requests i) with
  | error e => exact h.advance_stop (by rw [hp, Everywhere.advance, hr]; rfl)
  | ok u =>
    have hadv : Everywhere.advance P s.exclusive (requests i) s.world (s.stage i) =
        (.listing s.world.shares.keys s.world.shares.keys, s.world) := by
      rw [hp, Everywhere.advance, hr]
      rfl
    obtain ⟨⟨⟩, -, hr⟩ := bind_eq_ok.mp hr
    obtain ⟨⟨⟩, hdir, hr⟩ := bind_eq_ok.mp hr
    have hisDir : s.world.isDir (requests i).root = true := by
      by_contra hnot
      rw [World.canonicalize, if_neg hnot] at hdir
      cases hdir
    have hq : Real (requests i).root ∧ ¬ Overlap (requests i).root start.state :=
      ⟨s.world.real _ hisDir, h.state ▸ ensure_eq_ok.mp hr⟩
    rw [advanced_eq hadv]
    exact ⟨plan, h.quiet rfl rfl (fun _ => id) ⟨hq, fun k hk => Std.ExtTreeMap.mem_keys.mpr (h.kept k hk), fun k => .inl⟩
      (fun ho => ho.elim) (by rw [hp]; rfl) (.inl (by rw [hp]; rfl))⟩

/-- It reads the configurations of the shares that it listed. -/
theorem Sound.advance_listing (h : Sound P requests start plan s) {i : ι} {listed : List String} {rest : List String} (hp : s.stage i = .listing listed rest) :
    ∃ plan', Sound P requests start plan' (s.advanced P requests i) := by
  have hfits := h.fits i
  rw [hp] at hfits
  obtain ⟨hq, hall, hread⟩ := hfits
  cases rest with
  | nil =>
    cases hr : s.world.vacant (requests i) with
    | error e => exact h.advance_stop (by rw [hp, Everywhere.advance, hr]; rfl)
    | ok u =>
      have hadv : Everywhere.advance P s.exclusive (requests i) s.world (s.stage i) = (.checked listed, s.world) := by
        rw [hp, Everywhere.advance, hr]
        rfl
      rw [advanced_eq hadv]
      exact ⟨plan, h.quiet rfl rfl (fun _ => id) ⟨hq, hall, fun k hk => (hread k hk).resolve_left List.not_mem_nil⟩
        (fun ho => ho.elim) (by rw [hp]; rfl) (.inl (by rw [hp]; rfl))⟩
  | cons k rest =>
    cases hr : s.world.readApart k (requests i).root with
    | error e => exact h.advance_stop (by rw [hp, Everywhere.advance, hr]; rfl)
    | ok u =>
      have hadv : Everywhere.advance P s.exclusive (requests i) s.world (s.stage i) = (.listing listed rest, s.world) := by
        rw [hp, Everywhere.advance, hr]
        rfl
      have hclear : ∃ r, plan k = some r ∧ ¬ Overlap (requests i).root r := by
        rw [World.readApart] at hr
        cases hslot : s.world.shares[k]? with
        | none =>
          rw [hslot] at hr
          cases hr
        | some slot =>
          rw [hslot] at hr
          obtain ⟨c, hc, hr⟩ := bind_eq_ok.mp hr
          exact ⟨c.rootPath, (h.read k c ⟨slot, hslot, hc⟩).1, ensure_eq_ok.mp hr⟩
      rw [advanced_eq hadv]
      refine ⟨plan, h.quiet rfl rfl (fun _ => id) ⟨hq, hall, ?_⟩ (fun ho => ho.elim) (by rw [hp]; rfl)
        (.inl (by rw [hp]; rfl))⟩
      intro k' hk'
      rcases hread k' hk' with hrest | hdone
      · rcases List.mem_cons.mp hrest with rfl | hrest
        · exact .inr hclear
        · exact .inl hrest
      · exact .inr hdone

/-- It makes its directory. -/
theorem Sound.advance_checked (h : Sound P requests start plan s) {i : ι} {listed : List String} (hp : s.stage i = .checked listed) (hsafe : Safe requests s i) :
    ∃ plan', Sound P requests start plan' (s.advanced P requests i) := by
  by_cases hfresh : (requests i).id ∈ s.world.shares
  · refine h.advance_stop ?_
    rw [hp, Everywhere.advance, World.makeDirectory, if_pos hfresh]
    rfl
  · have hadv : Everywhere.advance P s.exclusive (requests i) s.world (s.stage i) =
        (.reserved, { s.world with shares := s.world.shares.insert (requests i).id ⟨none, none, false, false⟩ }) := by
      rw [hp, Everywhere.advance, World.makeDirectory, if_neg hfresh]
      rfl
    rw [advanced_eq hadv]
    exact ⟨_, h.reserve hp hsafe hfresh⟩

/-- It makes the marker. -/
theorem Sound.advance_reserved (h : Sound P requests start plan s) {i : ι} (hp : s.stage i = .reserved) :
    ∃ plan', Sound P requests start plan' (s.advanced P requests i) := by
  have hfits := h.fits i
  rw [hp] at hfits
  cases hm : s.world.marker (requests i).root with
  | some bytes =>
    refine h.advance_stop ?_
    rw [hp, Everywhere.advance, World.makeMarker, hm]
    rfl
  | none =>
    have hadv : Everywhere.advance P s.exclusive (requests i) s.world (s.stage i) =
        (.marking (utf8 (requests i).marker),
          { s.world with marker := update s.world.marker (requests i).root (some []) }) := by
      rw [hp, Everywhere.advance, World.makeMarker, hm]
      rfl
    rw [advanced_eq hadv]
    refine ⟨plan, h.quiet rfl rfl ?_ hfits (fun _ => by rw [hp]; trivial) (by rw [hp]; rfl)
      (.inr ⟨by rw [hp]; rfl, rfl, hm, ?_⟩)⟩
    · intro r hr
      dsimp only
      by_cases hroot : r = (requests i).root
      · rw [hroot, update_self]
        simp
      · rwa [update_of_ne hroot]
    · dsimp only
      rw [update_self]
      simp

/-- It writes the marker. -/
theorem Sound.advance_marking (h : Sound P requests start plan s) {i : ι} {rest : Bytes} (hp : s.stage i = .marking rest) :
    ∃ plan', Sound P requests start plan' (s.advanced P requests i) := by
  have hfits := h.fits i
  rw [hp] at hfits
  cases rest with
  | nil =>
    cases hder : s.world.identityDer with
    | none =>
      refine h.advance_stop ?_
      rw [hp, Everywhere.advance, World.readIdentity, hder]
      rfl
    | some der =>
      have hadv : Everywhere.advance P s.exclusive (requests i) s.world (s.stage i) = (.identified der, s.world) := by
        rw [hp, Everywhere.advance, World.readIdentity, hder]
        rfl
      rw [advanced_eq hadv]
      exact ⟨plan, h.quiet rfl rfl (fun _ => id) hfits (fun _ => by rw [hp]; trivial) (by rw [hp]; rfl)
        (.inl (by rw [hp]; rfl))⟩
  | cons b rest =>
    have hadv : Everywhere.advance P s.exclusive (requests i) s.world (s.stage i) =
        (.marking rest, (s.world.appendMarker (requests i).root b).2) := by
      rw [hp]
      rfl
    rw [advanced_eq hadv]
    refine ⟨plan, h.quiet rfl rfl ?_ hfits (fun _ => by rw [hp]; trivial) (by rw [hp]; rfl) (.inl (by rw [hp]; rfl))⟩
    intro r hr
    rw [World.appendMarker]
    dsimp only
    by_cases hroot : r = (requests i).root
    · rw [hroot, update_self]
      rw [hroot] at hr
      simpa using hr
    · rwa [update_of_ne hroot]

/-- It makes the directory of the objects. -/
theorem Sound.advance_identified (h : Sound P requests start plan s) {i : ι} {der : Bytes} (hp : s.stage i = .identified der) :
    ∃ plan', Sound P requests start plan' (s.advanced P requests i) := by
  have hfits := h.fits i
  rw [hp] at hfits
  obtain ⟨hreal, slot, hslot, hconfig⟩ := hfits
  have hadv : Everywhere.advance P s.exclusive (requests i) s.world (s.stage i) = (.stocked der,
      { s.world with shares := s.world.shares.insert (requests i).id { slot with objects := true } }) := by
    rw [hp, Everywhere.advance, World.change, hslot]
    rfl
  rw [advanced_eq hadv]
  refine ⟨plan, h.change hslot (by rw [hp]; trivial) (by rw [hp]; rfl) rfl (by rw [hp]; rfl) rfl ?_
    ⟨hreal, _, Std.ExtTreeMap.getElem?_insert_self, hconfig⟩⟩
  intro c hc
  rw [Slot.readConfig, hconfig] at hc
  cases hc

/-- It makes its configuration. -/
theorem Sound.advance_stocked (h : Sound P requests start plan s) {i : ι} {der : Bytes} (hp : s.stage i = .stocked der) :
    ∃ plan', Sound P requests start plan' (s.advanced P requests i) := by
  have hfits := h.fits i
  rw [hp] at hfits
  obtain ⟨hreal, slot, hslot, hconfig⟩ := hfits
  have hadv : Everywhere.advance P s.exclusive (requests i) s.world (s.stage i) = (.writing ((requests i).text P der),
      { s.world with shares := s.world.shares.insert (requests i).id { slot with config := some [] } }) := by
    rw [hp, Everywhere.advance, World.change, hslot]
    simp only [World.newConfig, hconfig]
    rfl
  rw [advanced_eq hadv]
  refine ⟨plan, h.change hslot (by rw [hp]; trivial) (by rw [hp]; rfl) rfl (by rw [hp]; rfl) rfl ?_
    ⟨hreal, _, [], der, Std.ExtTreeMap.getElem?_insert_self, rfl, rfl⟩⟩
  intro c hc
  exact @rootPath_of_parse P (requests i) der [] _ c hreal rfl hc

/-- It writes the configuration. -/
theorem Sound.advance_writing (h : Sound P requests start plan s) {i : ι} {rest : Bytes} (hp : s.stage i = .writing rest) :
    ∃ plan', Sound P requests start plan' (s.advanced P requests i) := by
  have hfits := h.fits i
  rw [hp] at hfits
  obtain ⟨hreal, slot, p, der, hslot, hconfig, htext⟩ := hfits
  cases rest with
  | nil =>
    have hadv : Everywhere.advance P s.exclusive (requests i) s.world (s.stage i) = (.written,
        { s.world with shares := s.world.shares.insert (requests i).id { slot with index := true } }) := by
      rw [hp, Everywhere.advance, World.change, hslot]
      rfl
    rw [advanced_eq hadv]
    refine ⟨plan, h.change hslot (by rw [hp]; trivial) (by rw [hp]; rfl) rfl (by rw [hp]; rfl) rfl ?_ trivial⟩
    intro c hc
    rw [Slot.readConfig, hconfig] at hc
    exact rootPath_of_parse hreal htext hc
  | cons b rest =>
    have hadv : Everywhere.advance P s.exclusive (requests i) s.world (s.stage i) = (.writing rest,
        { s.world with shares := s.world.shares.insert (requests i).id { slot with config := some (p ++ [b]) } }) := by
      rw [hp, Everywhere.advance, World.change, hslot]
      simp only [World.appendConfig, hconfig]
      rfl
    have htext' : (p ++ [b]) ++ rest = (requests i).text P der := by rw [← htext, List.append_assoc]; rfl
    rw [advanced_eq hadv]
    refine ⟨plan, h.change hslot (by rw [hp]; trivial) (by rw [hp]; rfl) rfl (by rw [hp]; rfl) rfl ?_
      ⟨hreal, _, _, der, Std.ExtTreeMap.getElem?_insert_self, rfl, htext'⟩⟩
    intro c hc
    exact rootPath_of_parse hreal htext' hc

/-- It opens the share. -/
theorem Sound.advance_written (h : Sound P requests start plan s) {i : ι} (hp : s.stage i = .written) :
    ∃ plan', Sound P requests start plan' (s.advanced P requests i) := by
  cases hr : s.world.openShare P (requests i).id with
  | error e => exact h.advance_stop (by rw [hp, Everywhere.advance, hr]; rfl)
  | ok c =>
    have hadv : Everywhere.advance P s.exclusive (requests i) s.world (s.stage i) = (.done, s.world) := by
      rw [hp, Everywhere.advance, hr]
      rfl
    rw [advanced_eq hadv]
    exact ⟨plan, h.quiet rfl rfl (fun _ => id) trivial (fun ho => ho.elim) (by rw [hp]; rfl) (.inl (by rw [hp]; rfl))⟩

/-- **A step keeps what holds.** -/
theorem Sound.advance (h : Sound P requests start plan s) (i : ι) (hsafe : Safe requests s i) :
    ∃ plan', Sound P requests start plan' (s.advanced P requests i) := by
  cases hp : s.stage i with
  | idle => exact h.advance_idle hp
  | guarded => exact h.advance_guarded hp
  | listing _ _ => exact h.advance_listing hp
  | checked _ => exact h.advance_checked hp hsafe
  | reserved => exact h.advance_reserved hp
  | marking _ => exact h.advance_marking hp
  | identified _ => exact h.advance_identified hp
  | stocked _ => exact h.advance_stocked hp
  | writing _ => exact h.advance_writing hp
  | written => exact h.advance_written hp
  | done | failed made marked =>
    have hsame : s.advanced P requests i = s := by
      rw [advanced, hp, Everywhere.advance, ← hp, update_eq_self]
    rw [hsame]
    exact ⟨plan, h⟩

/-- What holds in every run of safe steps. -/
theorem sound_run {s' : Creations ι} (hinitial : Initial s) (hapart : s.world.Apart)
    (hrun : Relation.ReflTransGen (Step P requests (Safe requests)) s s') :
    ∃ plan, Sound P requests s.world plan s' := by
  induction hrun with
  | refl => exact ⟨_, sound_initial hinitial hapart⟩
  | tail _ hstep ih =>
    obtain ⟨plan, h⟩ := ih
    cases hstep with
    | advance i hsafe => exact h.advance i hsafe
    | stop i => exact ⟨plan, h.stop i⟩

/-- **Registered folders are apart.** On a device whose registered folders are apart, any number of creations, of any names
and folders, take their steps in any order, and stop at any point. When none of them makes its directory after another one
has, since the first listed the shares, made its own for a folder that is in that of the first or contains it, the
registered folders are apart from each other and from the state at all times. -/
theorem creations_apart (P : Platform) (requests : ι → Request) (s s' : Creations ι) (hinitial : Initial s)
    (hapart : s.world.Apart) (hrun : Relation.ReflTransGen (Step P requests (Safe requests)) s s') : s'.world.Apart := by
  obtain ⟨plan, h⟩ := sound_run hinitial hapart hrun
  exact h.registered

/-! ### Two creations at one time -/

/-- Some creations go on, in an order. -/
def drive (P : Platform) (requests : ι → Request) (order : List ι) (s : Creations ι) : Creations ι :=
  order.foldl (advanced P requests) s

theorem reaches_drive {ok : Creations ι → ι → Prop} (hok : ∀ s i, ok s i) (order : List ι) (s : Creations ι) :
    Relation.ReflTransGen (Step P requests ok) s (drive P requests order s) := by
  induction order generalizing s with
  | nil => exact .refl
  | cons i order ih => exact (Relation.ReflTransGen.single (.advance i (hok s i))).trans (ih _)

omit [DecidableEq ι] in
omit [DecidableEq ι] in
/-- Creations of folders that are apart are safe at every step. -/
theorem safe_of_apart (h : ∀ i j, i ≠ j → ¬ Overlap (requests i).root (requests j).root) (s : Creations ι) (i : ι) :
    Safe requests s i :=
  fun _ _ j hj _ _ hoverlap => absurd hoverlap (h i j hj.symm)

/-- A device without shares, and three folders, one of them in another one. -/
def newFolders : World where
  state := ["state"]
  identityDer := some []
  shares := ∅
  trusted _ := true
  isDir p := p = ["a"] ∨ p = ["a", "b"] ∨ p = ["c"]
  real p h := by
    rw [decide_eq_true_eq] at h
    rcases h with rfl | rfl | rfl <;> exact ⟨by simp, by decide⟩
  marker _ := none

theorem apart_newFolders : newFolders.Apart := by
  refine ⟨?_, ?_⟩
  · rintro k k' c c' - ⟨slot, hslot, -⟩
    simp [newFolders] at hslot
  · rintro k c ⟨slot, hslot, -⟩
    simp [newFolders] at hslot

/-- A share for the folder `a`, and one for another folder. -/
def pair (root : FilePath) (other : Bool) : Request :=
  if other then ⟨"b", root, .bidirectional, World.sampleDigest, World.sampleDigest⟩
  else ⟨"a", ["a"], .bidirectional, World.sampleDigest, World.sampleDigest⟩

/-- Both have listed the shares before one makes its directory. -/
def bothListed : List Bool :=
  [false, false, false, true, true, true] ++ List.replicate 500 false ++ List.replicate 500 true

/-- The device after both creations. -/
def both (root : FilePath) : Creations Bool := drive .padded (pair root) bothListed ⟨newFolders, false, fun _ => .idle⟩

theorem both_registered {root : FilePath} {other : Bool} (hplain : plainName (pair root other).id = true)
    (hroot : Real (pair root other).root)
    (h : ((both root).world.shares[(pair root other).id]?.bind Slot.config) = some ((pair root other).text .padded [])) :
    ∃ c, (both root).world.Registered (pair root other).id c ∧ c.rootPath = (pair root other).root := by
  obtain ⟨slot, hslot, hconfig⟩ := Option.bind_eq_some_iff.mp h
  obtain ⟨c, hc, hcroot⟩ := @parse_request _ _ [] hplain hroot (Platform.padded_isHash [])
  refine ⟨c, ⟨slot, hslot, ?_⟩, hcroot⟩
  rw [Slot.readConfig, hconfig]
  exact hc

/-- Two creations at one time, of folders that are apart: both are registered. -/
theorem creations_apart_both : (both ["c"]).world.Apart ∧
    (∃ c, (both ["c"]).world.Registered "a" c ∧ c.rootPath = ["a"]) ∧
    ∃ c, (both ["c"]).world.Registered "b" c ∧ c.rootPath = ["c"] := by
  have hclear : ∀ i j, i ≠ j → ¬ Overlap (pair ["c"] i).root (pair ["c"] j).root := by decide
  have hrun := @reaches_drive _ .padded (pair ["c"]) _ _ (safe_of_apart hclear) bothListed ⟨newFolders, false, fun _ => .idle⟩
  refine ⟨creations_apart .padded (pair ["c"]) ⟨newFolders, false, fun _ => .idle⟩ _ (fun _ => rfl) apart_newFolders hrun,
    ?_, ?_⟩
  · exact @both_registered ["c"] false (by decide) (newFolders.real ["a"] (by decide)) (by decide +kernel)
  · exact @both_registered ["c"] true (by decide) (newFolders.real ["c"] (by decide)) (by decide +kernel)

/-- Two folders, one in the other, are registered by two creations at one time. -/
theorem creations_nested : ¬ ∀ (P : Platform) (ι : Type) [DecidableEq ι] (requests : ι → Request) (s s' : Creations ι),
    Initial s → s.world.Apart → Relation.ReflTransGen (Step P requests fun _ _ => True) s s' → s'.world.Apart := by
  intro h
  have hboth : (both ["a", "b"]).world.Apart := h .padded Bool (pair ["a", "b"]) ⟨newFolders, false, fun _ => .idle⟩ _
    (fun _ => rfl) apart_newFolders (reaches_drive (fun _ _ => trivial) _ _)
  obtain ⟨c, hc, hroot⟩ := @both_registered ["a", "b"] false (by decide) (newFolders.real ["a"] (by decide)) (by decide +kernel)
  obtain ⟨c', hc', hroot'⟩ := @both_registered ["a", "b"] true (by decide) (newFolders.real ["a", "b"] (by decide))
    (by decide +kernel)
  refine hboth.1 _ _ c c' (by decide) hc hc' ?_
  rw [hroot, hroot']
  exact .inl (by decide)

end Creations

end Everywhere
