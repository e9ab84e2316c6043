import Everywhere.Result
import Everywhere.Library.Json

/-!
# Frames

Two ends of a connection exchange JSON values in frames. Both ends have the same limit: a value whose text is longer is not
sent (`packet`), and a longer frame is not read (`readFrame`), nor is a value that is nested too deep. An end that is not
ready yet sends heartbeats, which the other end skips; only frames with a value are modelled here.
-/

namespace Everywhere

open Library

/-- The longest frame of a transfer. -/
def maxFrame : ℕ := 80 * 1024 * 1024

/-- The longest frame in which records are exchanged. -/
def controlFrame : ℕ := 4 * 1024 * 1024

/-- A value in a frame. -/
def ready (value : Json) : Json := .obj [("state", .str "ready"), ("value", value)]

/-- Put a value into a frame. -/
def packet (limit : ℕ) (value : Json) : Result Bytes := do
  ensure ((ready value).render.length ≤ limit) "frame too large"
  pure (ready value).render

/-- Read the value of a frame. -/
def readFrame (limit : ℕ) (bytes : Bytes) : Result Json := do
  ensure (bytes.length ≤ limit) "frame too large"
  match Json.parse bytes with
  | some j =>
    match j.get "state", j.get "value" with
    | some (.str "ready"), some value => pure value
    | _, _ => .error .json
  | none => .error .json

theorem length_ready (value : Json) : (ready value).render.length = value.render.length + 26 := by
  have h1 : (Json.quoted "state").length = 7 := by decide +kernel
  have h2 : (Json.quoted "ready").length = 7 := by decide +kernel
  have h3 : (Json.quoted "value").length = 7 := by decide +kernel
  simp only [ready, Json.render, Json.renderMembers, List.length_cons, List.length_append, List.length_nil]
  omega

/-- A value goes through a connection. -/
def Passes (limit : ℕ) (value : Json) : Prop := ∃ bytes, packet limit value = .ok bytes ∧ readFrame limit bytes = .ok value

theorem depth_ready (value : Json) : (ready value).depth = value.depth + 1 := by
  simp [ready, Json.depth, Json.depthMembers]

/-- A value goes through a connection exactly when its text is not too long and it is not nested too deep. -/
theorem passes_iff {limit : ℕ} {value : Json} :
    Passes limit value ↔ value.render.length + 26 ≤ limit ∧ value.depth < Json.maxDepth := by
  rw [← length_ready, ← Nat.succ_le_iff, Nat.succ_eq_add_one, ← depth_ready]
  constructor
  · rintro ⟨bytes, h, hread⟩
    rw [packet, ensure_bind_eq_ok] at h
    obtain ⟨hlen, hbytes⟩ := h
    obtain rfl := pure_eq_ok.mp hbytes
    refine ⟨hlen, ?_⟩
    by_contra hdeep
    rw [readFrame, Json.parse_render_eq, if_neg hdeep, ensure_bind_eq_ok] at hread
    cases hread.2
  · rintro ⟨hlen, hdepth⟩
    refine ⟨(ready value).render, ensure_bind_eq_ok.mpr ⟨hlen, rfl⟩, ensure_bind_eq_ok.mpr ⟨hlen, ?_⟩⟩
    rw [Json.parse_render hdepth]
    simp [ready, Json.get, List.lookup, pure, Except.pure]

end Everywhere
