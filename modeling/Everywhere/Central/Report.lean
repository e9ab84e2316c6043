import Everywhere.Library.Objects
import Everywhere.Frames
import Everywhere.Central.Delivery

/-!
# Reports

Every request of an agent for work carries a report on the device and the results that the server has not recorded.
Both may be large, and the connection takes no message of more than two mebibytes: a message that did not fit would cut
the device off. `boundedReport` therefore drops folders from the report until it is short enough, and the journal keeps no
result that is longer than half a mebibyte (`Journal.finish`).

`Object` stands for the values of the program that are objects. The report is one: it is what the catalog of the
folders says, or an error, and has the system and the jobs added.

* `Shortened` — what is left of a report.
* `boundedReport_spec` — what comes of the loop.
* `control_survives` — reports and results are bounded, requests fit, and the server takes them as they are.
-/

namespace Everywhere.Central

open Library

/-! ### The report -/

/-- The longest report. -/
def reportLimit : ℕ := 512 * 1024

/-- The longest frame of the control connection. -/
def frame : ℕ := 2 * 1024 * 1024

/-- The folders, if the report has a list of them. -/
def folders (report : Object) : Option (List Json) :=
  match report.get "folders" with
  | some (.arr folders) => some folders
  | _ => none

theorem folders_set (report : Object) (l : List Json) : folders (report.set "folders" (.arr l)) = some l := by
  rw [folders, Object.get_set]

theorem folders_set_ne {name : String} (h : "folders" ≠ name) (value : Json) (report : Object) :
    folders (report.set name value) = folders report := by
  rw [folders, Object.get_set_ne h, folders]

/-- The number of folders, a machine number. -/
def total (report : Object) : ℕ := ((folders report).elim 0 List.length) % 2 ^ 64

/-- The report of one turn of the loop. -/
def turnReport (catalog : Object) (os : String) (jobs : List Json) : Object :=
  (catalog.set "os" (.str os)).set "jobs" (.arr jobs)

/-- The report when nothing else is short enough. -/
def tooLong (total : ℕ) : Object where
  members := [
    ("error", .str ("Status summary exceeds the central limit. Control commands remain available; inspect detailed " ++
      "status on the device.")),
    ("folders_total", .num total),
    ("report_truncated", .bool true)]
  sorted := by
    have h1 : "error" < "folders_total" := by decide
    have h2 : "error" < "report_truncated" := by decide
    have h3 : "folders_total" < "report_truncated" := by decide
    simp only [List.pairwise_cons, List.mem_cons, List.not_mem_nil, or_false, forall_eq_or_imp, forall_eq]
    exact ⟨⟨h1, h2⟩, h3, fun _ h => h.elim, .nil⟩

/-- Halve the folders as long as the report is too long. -/
def shorten (total : ℕ) (report : Object) : Object :=
  if reportLimit < report.toJson.render.length then
    match h : folders (report.set "report_truncated" (.bool true)) with
    | some (f :: fs) =>
      shorten total
        ((report.set "report_truncated" (.bool true)).set "folders" (.arr ((f :: fs).take ((f :: fs).length / 2))))
    | _ => tooLong total
  else report
termination_by ((folders report).elim 0 List.length)
decreasing_by
  rw [folders_set_ne (by decide)] at h
  rw [folders_set, h, Option.elim_some, Option.elim_some, List.length_take, List.length_cons]
  omega

/-- The report as it is sent. -/
def boundedReport (report : Object) : Object := shorten (total report) (report.set "folders_total" (.num (total report)))

/-! ### What is left of a report -/

/-- A report with the first folders only. -/
structure Shortened (report result : Object) (k : ℕ) : Prop where
  /-- The folders are the first ones. -/
  folders : folders result = (folders report).map (List.take k)
  /-- What is not a list of folders is as it was. -/
  others : Central.folders report = none → result.get "folders" = report.get "folders"
  /-- The number of folders is told. -/
  total : result.get "folders_total" = some (.num (total report))
  /-- It is told that folders are missing. -/
  truncated : result.get "report_truncated" = some (.bool true) ∨
    result.get "report_truncated" = report.get "report_truncated" ∧
      ∀ l, Central.folders report = some l → l.take k = l
  /-- All else is as it was. -/
  rest : ∀ name, name ≠ "folders" → name ≠ "folders_total" → name ≠ "report_truncated" → result.get name = report.get name

theorem shortened_total (report : Object) :
    Shortened report (report.set "folders_total" (.num (total report))) (((folders report).elim 0 List.length)) where
  folders := by
    rw [folders_set_ne (by decide)]
    cases folders report <;> simp
  others _ := Object.get_set_ne (by decide) _ _
  total := Object.get_set _ _ _
  truncated := by
    refine .inr ⟨Object.get_set_ne (by decide) _ _, fun l hl => ?_⟩
    rw [hl, Option.elim_some, List.take_length]
  rest name _ hname _ := Object.get_set_ne hname _ _

/-- One turn of the loop leaves fewer of the first folders. -/
theorem Shortened.halve {report current : Object} {k : ℕ} (h : Shortened report current k) {l : List Json}
    (hl : Central.folders current = some l) (n : ℕ) :
    Shortened report ((current.set "report_truncated" (.bool true)).set "folders" (.arr (l.take n))) (min n k) where
  folders := by
    rw [folders_set]
    rw [h.folders] at hl
    obtain ⟨all, hall, rfl⟩ := Option.map_eq_some_iff.mp hl
    rw [hall, Option.map_some, List.take_take]
  others hnone := by
    rw [h.folders, hnone] at hl
    cases hl
  total := by rw [Object.get_set_ne (by decide), Object.get_set_ne (by decide), h.total]
  truncated := .inl (by rw [Object.get_set_ne (by decide), Object.get_set])
  rest name h1 h2 h3 := by rw [Object.get_set_ne h1, Object.get_set_ne h3, h.rest name h1 h2 h3]

/-- When no folder is left, it is the report without folders. -/
theorem Shortened.bare {report current : Object} {k : ℕ} (h : Shortened report current k)
    (hnone : ∀ f fs, Central.folders current ≠ some (f :: fs)) : Shortened report current 0 where
  folders := by
    rw [h.folders] at hnone ⊢
    cases hl : Central.folders report with
    | none => rfl
    | some l =>
      rw [hl] at hnone
      cases htake : l.take k with
      | nil => simp [htake]
      | cons f fs => exact absurd (congrArg some htake) (hnone f fs)
  others := h.others
  total := h.total
  truncated := by
    refine h.truncated.imp_right fun ⟨heq, hall⟩ => ⟨heq, fun l hl => ?_⟩
    rw [h.folders, hl, Option.map_some, hall l hl] at hnone
    cases l with
    | nil => rfl
    | cons f fs => exact absurd rfl (hnone f fs)
  rest := h.rest

theorem length_tooLong {n : ℕ} (h : n < 2 ^ 64) : (tooLong n).toJson.render.length ≤ reportLimit := by
  have hdigits := Json.length_decimal_le h
  have h1 : (Json.quoted "error").length = 7 := by decide +kernel
  have h2 : (Json.quoted "folders_total").length = 15 := by decide +kernel
  have h3 : (Json.quoted "report_truncated").length = 18 := by decide +kernel
  have h4 : (Json.quoted ("Status summary exceeds the central limit. Control commands remain available; inspect detailed " ++
      "status on the device.")).length ≤ 200 := by decide +kernel
  simp only [tooLong, Object.toJson, Json.render, Json.renderMembers, List.length_cons, List.length_append, List.length_nil,
    reportLimit]
  omega

/-- What the loop comes to. -/
structure Outcome (report result : Object) : Prop where
  /-- It is short enough. -/
  short : result.toJson.render.length ≤ reportLimit
  /-- It is the report with the first folders, or even the report without folders is too long. -/
  left : (∃ k, Shortened report result k) ∨
    result = tooLong (total report) ∧ ∃ bare, Shortened report bare 0 ∧ reportLimit < bare.toJson.render.length

/-- What one turn of the loop leaves, the loop brings to its end. -/
theorem outcome_shorten {report current : Object} {k : ℕ} (h : Shortened report current k) :
    Outcome report (shorten (total report) current) := by
  induction hn : ((folders current).elim 0 List.length) using Nat.strong_induction_on generalizing current k with
  | _ n ih =>
    rw [shorten]
    split_ifs with hlong
    · split
      · rename_i f fs hfolders
        rw [folders_set_ne (by decide)] at hfolders
        rw [hfolders, Option.elim_some, List.length_cons] at hn
        refine ih _ ?_ (h.halve hfolders ((f :: fs).length / 2)) rfl
        rw [folders_set, Option.elim_some, List.length_take, List.length_cons]
        omega
      · rename_i hfolders
        rw [folders_set_ne (by decide)] at hfolders
        exact ⟨length_tooLong (Nat.mod_lt _ (by norm_num)), .inr ⟨rfl, current, h.bare hfolders, hlong⟩⟩
    · exact ⟨not_lt.mp hlong, .inl ⟨k, h⟩⟩

theorem outcome_boundedReport (report : Object) : Outcome report (boundedReport report) :=
  outcome_shorten (shortened_total report)

/-- The loop leaves a report nested no deeper. -/
theorem depth_shorten_le {n total : ℕ} {report : Object} (h : report.toJson.depth ≤ n + 1) :
    (shorten total report).toJson.depth ≤ n + 1 := by
  induction hk : ((folders report).elim 0 List.length) using Nat.strong_induction_on generalizing report with
  | _ k ih =>
    rw [shorten]
    split_ifs
    · split
      · rename_i f fs hfolders
        rw [folders_set_ne (by decide)] at hfolders
        rw [hfolders, Option.elim_some, List.length_cons] at hk
        refine ih _ ?_ (Object.depth_set_le (Object.depth_set_le h (by simp [Json.depth]) _) ?_ _) rfl
        · rw [folders_set, Option.elim_some, List.length_take, List.length_cons]
          omega
        · have hget : report.get "folders" = some (.arr (f :: fs)) := by
            rw [folders] at hfolders
            split at hfolders
            · rename_i hget
              rw [hget, Option.some.inj hfolders]
            · cases hfolders
          have hdepth := Object.depth_toJson_le.mp h _ (Object.mem_of_get hget)
          obtain ⟨n, rfl⟩ : ∃ m, n = m + 1 := ⟨n - 1, by rw [Json.depth] at hdepth; omega⟩
          rw [Json.depth_arr_le] at hdepth ⊢
          exact fun j hj => hdepth j (List.mem_of_mem_take hj)
      · simp [tooLong, Object.toJson, Json.depth, Json.depthMembers]
    · exact h

theorem depth_boundedReport_le {n : ℕ} {report : Object} (h : report.toJson.depth ≤ n + 1) :
    (boundedReport report).toJson.depth ≤ n + 1 :=
  depth_shorten_le (Object.depth_set_le h (by simp [Json.depth]) _)

theorem depth_turnReport_le {n : ℕ} {catalog : Object} {jobs : List Json} (h : catalog.toJson.depth ≤ n + 2)
    (hjobs : ∀ j ∈ jobs, j.depth ≤ n) (os : String) : (turnReport catalog os jobs).toJson.depth ≤ n + 2 :=
  Object.depth_set_le (Object.depth_set_le h (by simp [Json.depth]) _) (Json.depth_arr_le.mpr hjobs) _

/-! ### The request -/

/-- A request as a document; a request for work carries a report. -/
def Request.toJson (report : Json) : Request → Json
  | .enroll invitation credential name certificate =>
    .obj [("kind", .str "enroll"), ("invitation", .str invitation), ("credential", .str credential), ("name", .str name),
      ("certificate", .arr (certificate.map fun b => .num b.toNat))]
  | .poll device credential results active =>
    .obj [("kind", .str "poll"), ("device", .str device), ("credential", .str credential), ("report", report),
      ("results", .arr (results.map CommandResult.toJson)), ("active", active.elim .null .str)]

/-- The report that the registry keeps. -/
def keptReport (report : Json) : Json :=
  if 768 * 1024 < report.render.length then
    .obj [
      ("error", .str "Agent status summary exceeded the server limit. Command control remains available."),
      ("report_truncated", .bool true)]
  else report

/-- `poll` with the column of reports: that of an approved device is replaced. -/
def Store.pollReport (P : Platform) (device credential : String) (report : Json) (results : List CommandResult)
    (active : Option String) (s : Store) (reports : String → Json) : Result (Reply × Store × (String → Json)) := do
  let (reply, store) ← s.poll P device credential results active
  pure (reply, store,
    if reply.state = .known .approved then Function.update reports device (keptReport report) else reports)

/-- The longest result in a message, with what is written around it. -/
def resultLimit : ℕ := 512 * 1024 + 256

theorem length_name_le (state : ResultState) : (Json.quoted state.name).length ≤ 11 := by
  cases state <;> decide +kernel

theorem length_result_le {r : CommandResult} (hid : isHash r.id = true) (hvalue : r.value.render.length ≤ 512 * 1024) :
    r.toJson.render.length ≤ resultLimit := by
  have h1 : (Json.quoted "id").length = 4 := by decide +kernel
  have h2 : (Json.quoted "status").length = 8 := by decide +kernel
  have h3 : (Json.quoted "value").length = 7 := by decide +kernel
  have hname := length_name_le r.status
  have hquoted := length_quoted_of_isHash hid
  simp only [CommandResult.toJson, Json.render, Json.renderMembers, List.length_cons, List.length_append, List.length_nil,
    resultLimit]
  omega

/-- A request for work with at most one result goes through the connection. -/
theorem passes_poll {device credential : String} {report : Json} {results : List CommandResult} {active : Option String}
    (hdevice : isHash device = true) (hcredential : isHash credential = true)
    (hreport : report.render.length ≤ reportLimit) (hone : results.length ≤ 1)
    (hresults : ∀ r ∈ results, r.toJson.render.length ≤ resultLimit) (hactive : ∀ id, active = some id → isHash id = true)
    (hdeep : report.depth + 1 < Json.maxDepth) (hvalues : ∀ r ∈ results, r.value.depth + 3 < Json.maxDepth) :
    Passes frame ((Request.poll device credential results active).toJson report) := by
  have hlist : (Json.renderItems (results.map CommandResult.toJson)).length ≤ resultLimit + 1 := by
    have := Json.length_renderItems_le (b := resultLimit) (l := results.map CommandResult.toJson) fun j hj => by
      obtain ⟨r, hr, rfl⟩ := List.mem_map.mp hj
      exact hresults r hr
    rw [List.length_map] at this
    exact this.trans (by simpa using Nat.mul_le_mul_right (resultLimit + 1) hone)
  have hid : (active.elim Json.null Json.str).render.length ≤ 66 := by
    cases active with
    | none => decide +kernel
    | some id => exact (length_quoted_of_isHash (hactive id rfl)).le
  have hdevice := length_quoted_of_isHash hdevice
  have hcredential := length_quoted_of_isHash hcredential
  have h1 : (Json.quoted "kind").length + (Json.quoted "poll").length + (Json.quoted "device").length +
      (Json.quoted "credential").length + (Json.quoted "report").length + (Json.quoted "results").length +
      (Json.quoted "active").length ≤ 70 := by decide +kernel
  rw [passes_iff]
  rw [Json.maxDepth] at hdeep hvalues ⊢
  refine ⟨?_, Nat.lt_succ_iff.mpr (Json.depth_obj_le.mpr ?_)⟩
  · simp only [resultLimit, reportLimit, frame] at *
    simp only [Request.toJson, Json.render, Json.renderMembers, List.length_cons, List.length_append, List.length_nil]
    omega
  · have hlist : (Json.arr (results.map CommandResult.toJson)).depth ≤ 125 := Json.depth_arr_le.mpr fun j hj => by
      obtain ⟨r, hr, rfl⟩ := List.mem_map.mp hj
      have := hvalues r hr
      rw [CommandResult.depth_toJson]
      omega
    have hactive : (active.elim Json.null Json.str).depth = 0 := by cases active <;> simp [Json.depth]
    simp only [List.forall_mem_cons, List.not_mem_nil, false_imp_iff, implies_true, and_true]
    simp only [Json.depth]
    exact ⟨Nat.zero_le _, Nat.zero_le _, Nat.zero_le _, by omega, hlist, hactive.le.trans (Nat.zero_le _)⟩

/-! ### What the journal holds -/

/-- The journal holds commands with valid identifiers, and results that are short enough. -/
structure Journal.Fits (journal : Journal) : Prop where
  /-- The identifiers are valid. -/
  ids : ∀ e ∈ journal, isHash e.id = true
  /-- The results are short. -/
  values : ∀ e ∈ journal, ∀ r ack, e.state = .done r ack → r.value.render.length ≤ 512 * 1024

namespace Journal

variable {journal journal' : Journal}

theorem length_bounded_le (r : CommandResult) : (bounded r).value.render.length ≤ 512 * 1024 := by
  rw [bounded]
  split_ifs with h
  · change (Json.obj [("error",
      .str "Command output exceeds the central response limit; inspect it on the local device.")]).render.length ≤ _
    decide +kernel
  · exact not_lt.mp h

theorem Fits.finish (h : journal.Fits) (r : CommandResult) : (journal.finish r).Fits where
  ids e he := by
    obtain ⟨e', he', rfl⟩ := List.mem_map.mp he
    have := h.ids e' he'
    split_ifs <;> exact this
  values e he q ack hs := by
    obtain ⟨e', he', rfl⟩ := List.mem_map.mp he
    split_ifs at hs
    · cases hs
      exact length_bounded_le r
    · exact h.values e' he' q ack hs

/-- Marking results keeps them. -/
theorem Fits.mark (h : journal.Fits) {f : Executed → Executed}
    (hf : ∀ e, (f e).id = e.id ∧ ∀ r ack, (f e).state = .done r ack → ∃ ack', e.state = .done r ack') :
    Fits (journal.map f) where
  ids e he := by
    obtain ⟨e', he', rfl⟩ := List.mem_map.mp he
    rw [(hf e').1]
    exact h.ids e' he'
  values e he r ack hs := by
    obtain ⟨e', he', rfl⟩ := List.mem_map.mp he
    obtain ⟨ack', hs'⟩ := (hf e').2 r ack hs
    exact h.values e' he' r ack' hs'

/-- A mark on the result of one command. -/
theorem mark_spec (id : String) (value : Bool) (e : Executed) :
    let f : Executed → Executed := fun e => match e.state with
      | .done result _ => if e.id = id then { e with state := .done result value } else e
      | .executing => e
    (f e).id = e.id ∧ ∀ r ack, (f e).state = .done r ack → ∃ ack', e.state = .done r ack' := by
  intro f
  cases hs : e.state with
  | executing =>
    have hfe : f e = e := by simp only [f, hs]
    rw [hfe]
    exact ⟨rfl, fun r ack h => ⟨ack, hs ▸ h⟩⟩
  | done result ack =>
    have hfe : f e = if e.id = id then { e with state := .done result value } else e := by simp only [f, hs]
    rw [hfe]
    split_ifs
    · refine ⟨rfl, fun r ack' h => ⟨ack, ?_⟩⟩
      cases h
      rfl
    · exact ⟨rfl, fun r ack' h => ⟨ack', hs ▸ h⟩⟩

theorem Fits.acknowledge (h : journal.Fits) (id : String) : (journal.acknowledge id).Fits := h.mark (mark_spec id true)

theorem Fits.start (h : journal.Fits) {command : Envelope} {new : Bool} (hstart : journal.start command = .ok (new, journal')) :
    journal'.Fits := by
  simp only [Journal.start, validPeer, ensure_bind_eq_ok] at hstart
  obtain ⟨hid, hstart⟩ := hstart
  split at hstart
  · rw [ensure_bind_eq_ok, pure_eq_ok] at hstart
    obtain ⟨-, hstart⟩ := hstart
    obtain ⟨-, rfl⟩ := Prod.mk.inj hstart
    exact h.mark (mark_spec command.id false)
  · obtain ⟨-, rfl⟩ := Prod.mk.inj (pure_eq_ok.mp hstart)
    refine ⟨fun e he => ?_, fun e he r ack hs => ?_⟩
    · rcases List.mem_append.mp he with he | he
      · exact h.ids e he
      · rw [List.mem_singleton.mp he]
        exact hid
    · rcases List.mem_append.mp he with he | he
      · exact h.values e he r ack hs
      · rw [List.mem_singleton.mp he] at hs
        cases hs

end Journal

/-- What an agent puts into messages is short enough. -/
structure Agent.Fits (P : Platform) (a : Agent) : Prop where
  /-- The journal. -/
  journal : a.journal.Fits
  /-- The credential. -/
  credential : ∀ p, a.process = some p → isHash p.config.credential = true
  /-- The name of the device is the hash of its certificate. -/
  device : ∀ p, a.process = some p → p.config.device = fingerprint P a.certificate

section steps

variable {P : Platform} {readable : Bytes → Bool} {s s' : System} {e : Event} {d : String} {p : Process}

/-- An agent whose process has ended. -/
theorem fits_idle {certificate : Bytes} {config : Option Config} {journal : Journal} (h : journal.Fits)
    {behind : List String} : Agent.Fits P ⟨certificate, config, journal, none, behind⟩ where
  journal := h
  credential p hp := by cases hp
  device p hp := by cases hp

/-- A step of one agent. -/
theorem fits_setAgent (h : ∀ d, (s.agents d).Fits P) {a : Agent} (ha : a.Fits P) :
    ∀ d', ((s.setAgent d a).agents d').Fits P := by
  intro d'
  by_cases hd : d' = d
  · subst hd
    simpa [System.setAgent] using ha
  · simpa [System.setAgent, Function.update_of_ne hd] using h d'

/-- A step of one loop, which may change the journal. -/
theorem fits_setJournal (h : ∀ d, (s.agents d).Fits P) (hp : (s.agents d).process = some p) {journal : Journal} {q : Process}
    (hj : journal.Fits) (hq : q.config = p.config) :
    ∀ d', (((s.setJournal d journal).setProcess d (some q)).agents d').Fits P := by
  rw [setJournal_setProcess]
  refine fits_setAgent h ⟨hj, fun q' hq' => ?_, fun q' hq' => ?_⟩
  · rw [← Option.some.inj hq', hq]
    exact (h d).credential p hp
  · rw [← Option.some.inj hq', hq]
    exact (h d).device p hp

/-- A step of one loop. -/
theorem fits_setProcess (h : ∀ d, (s.agents d).Fits P) (hp : (s.agents d).process = some p) {q : Process}
    (hq : q.config = p.config) : ∀ d', ((s.setProcess d (some q)).agents d').Fits P := by
  refine fits_setAgent h ⟨(h d).journal, fun q' hq' => ?_, fun q' hq' => ?_⟩
  · rw [← Option.some.inj hq', hq]
    exact (h d).credential p hp
  · rw [← Option.some.inj hq', hq]
    exact (h d).device p hp

/-- **Every step keeps what goes into messages short.** -/
theorem fits_step (h : ∀ d, (s.agents d).Fits P) (hstep : Step P readable s e s') : ∀ d, (s'.agents d).Fits P := by
  cases hstep with
  | invite | setDevice | queue | cancel | serve | reject | lose => exact h
  | configure => exact fits_setAgent h ⟨(h _).journal, (h _).credential, (h _).device⟩
  | @launch d config hp hconfig hid hload =>
    simp only [Config.load, validPeer, ensure_bind_eq_ok] at hload
    obtain ⟨hcredential, -, hdevice⟩ := hload
    refine fits_setAgent h ⟨(h d).journal, fun q hq => ?_, fun q hq => ?_⟩
    · rw [← Option.some.inj hq]
      exact hcredential
    · rw [← Option.some.inj hq]
      exact (ensure_eq_ok.mp hdevice).symm
  | recover hp hphase => exact fits_setJournal h hp ((h _).journal.finish _) rfl
  | enter hp hphase => exact fits_setProcess h hp rfl
  | work hp hw => exact fits_setProcess h hp rfl
  | collect hp hphase hw => exact fits_setJournal h hp ((h _).journal.finish _) rfl
  | ask hp hphase => split_ifs <;> exact fits_setProcess h hp rfl
  | registered hp hphase hm hn hd he => exact fits_setProcess h hp rfl
  | giveUp hp hphase => exact fits_setProcess h hp rfl
  | read hp hphase hm hn hd he => exact fits_setProcess h hp rfl
  | acknowledge hp hphase => exact fits_setJournal h hp ((h _).journal.acknowledge _) rfl
  | rest hp hphase => exact fits_setProcess h hp rfl
  | refuse hp hphase hbad => exact fits_setProcess h hp rfl
  | again hp hphase hstate hw hok => exact fits_setJournal h hp ((h _).journal.start hok) rfl
  | insert hp hphase hstate hw hok => exact fits_setJournal h hp ((h _).journal.start hok) rfl
  | start hp hphase => exact fits_setProcess h hp rfl
  | unreadable hp => exact fits_setProcess h hp rfl
  | stop | leave => exact fits_setAgent h (fits_idle (h _).journal)
  | expire => exact fits_setAgent h ⟨(h _).journal, (h _).credential, (h _).device⟩

end steps

/-! ### The channel -/

section channel

variable {P : Platform} {readable : Bytes → Bool} {certificate : String → Bytes} {trace : List Event} {s : System}

theorem fits_run (h : Run P readable (System.initial certificate) trace s) : ∀ d, (s.agents d).Fits P := by
  induction h with
  | refl =>
    exact fun d => fits_idle ⟨fun e he => absurd he List.not_mem_nil, fun e he => absurd he List.not_mem_nil⟩
  | step _ hstep ih => exact fits_step ih hstep

/-- The results in a journal are short. -/
theorem length_done_le (h : Run P readable (System.initial certificate) trace s) {d : String} {e : Executed}
    (he : e ∈ (s.agents d).journal) {r : CommandResult} {ack : Bool} (hs : e.state = .done r ack) :
    r.toJson.render.length ≤ resultLimit := by
  have hfits := (fits_run h d).journal
  refine length_result_le ?_ (hfits.values e he r ack hs)
  rw [((sound_run h).agents d).own e he r ack hs]
  exact hfits.ids e he

theorem length_unrecorded_le (journal : Journal) : journal.unrecorded.length ≤ 1 := by
  rw [Journal.unrecorded, List.length_take]
  exact min_le_left _ _

/-- A device that is enrolled is not turned away. -/
theorem poll_ok {device credential : String} {results : List CommandResult} (active : Option String) {store : Store}
    (hdevice : isHash device = true) (hcredential : isHash credential = true) (hresults : results.length ≤ 16)
    {row : Device} (hrow : store.devices.find? (·.id = device) = some row)
    (hsecret : row.credential = secretHash P credential) :
    ∃ reply store', store.poll P device credential results active = .ok (reply, store') ∧ reply.state = .known row.state := by
  have hok {b : Prop} [Decidable b] {text : String} (hb : b) : ensure b text = .ok () := ensure_eq_ok.mpr hb
  simp only [Store.poll, validPeer, hok hdevice, hok hcredential, hok hresults, hrow, hok hsecret, bind, Except.bind]
  split_ifs
  · split <;> exact ⟨_, _, rfl, rfl⟩
  · exact ⟨_, _, rfl, rfl⟩

/-- How deep the values are nested that the catalog, the jobs and the commands give. -/
def nesting : ℕ := 120

/-- **The control connection survives any report.** Whatever the catalog and the jobs are, the report is short, and is the
report with the first folders unless it would be too long with none; the results in the journal are short. As long as
nothing is nested deeper than `nesting`, a request for work is made of them, it goes through, and the server takes the
report and the results as they are. -/
theorem control_survives (hhash : ∀ bytes, isHash (P.blake3 bytes) = true)
    (h : Run P readable (System.initial certificate) trace s) (d : String) (catalog : Object) (os : String)
    (jobs : List Json) :
    Outcome (turnReport catalog os jobs) (boundedReport (turnReport catalog os jobs)) ∧
    (∀ k, Shortened (turnReport catalog os jobs) (boundedReport (turnReport catalog os jobs)) k →
      (boundedReport (turnReport catalog os jobs)).get "jobs" = some (.arr jobs)) ∧
    (∀ e ∈ (s.agents d).journal, ∀ r ack, e.state = .done r ack → r.toJson.render.length ≤ 512 * 1024 + 256) ∧
    (catalog.toJson.depth ≤ nesting → (∀ j ∈ jobs, j.depth ≤ nesting) →
      (∀ e ∈ (s.agents d).journal, ∀ r ack, e.state = .done r ack → r.value.depth ≤ nesting) →
      ∀ p, (s.agents d).process = some p →
      ∃ results, p.request (s.agents d).journal =
          .ok (.poll p.config.device p.config.credential results (p.worker.map Prod.fst)) ∧
        (∀ r, r ∈ results → (s.agents d).journal.Done r) ∧
        Passes frame ((Request.poll p.config.device p.config.credential results (p.worker.map Prod.fst)).toJson
          (boundedReport (turnReport catalog os jobs)).toJson) ∧
        ∀ (store : Store) (reports : String → Json) (row : Device),
          store.devices.find? (·.id = p.config.device) = some row → row.credential = secretHash P p.config.credential →
          ∃ reply store', store.pollReport P p.config.device p.config.credential
              (boundedReport (turnReport catalog os jobs)).toJson results (p.worker.map Prod.fst) reports =
            .ok (reply, store', if row.state = .approved then
              Function.update reports p.config.device (boundedReport (turnReport catalog os jobs)).toJson else reports)) := by
  have hreport := outcome_boundedReport (turnReport catalog os jobs)
  have hsound := (sound_run h).agents d
  have hfits := fits_run h d
  refine ⟨hreport, fun k hk => ?_, fun e he r ack hs => length_done_le h he hs,
    fun hcatalog hjobs houtputs p hp => ⟨(s.agents d).journal.unrecorded, ?_, fun r hr => ?_, ?_, ?_⟩⟩
  · rw [hk.rest "jobs" (by decide) (by decide) (by decide), turnReport, Object.get_set]
  all_goals
    have hdevice : isHash p.config.device = true := by
      rw [hfits.device p hp]
      exact hhash _
    have hone := length_unrecorded_le (s.agents d).journal
  · have hresults : (s.agents d).journal.results = .ok (s.agents d).journal.unrecorded := by
      refine Journal.results_eq_ok.mpr ⟨rfl, fun r hr => ?_⟩
      obtain ⟨e, he, -, ack, hs⟩ := Journal.done_of_unrecorded hsound.own hr
      have := houtputs e he r ack hs
      rw [nesting] at this
      rw [Json.maxDepth]
      omega
    rw [Process.request, hresults]
    rfl
  · exact Journal.done_of_unrecorded hsound.own hr
  · refine passes_poll hdevice (hfits.credential p hp) hreport.short hone (fun r hr => ?_) (fun id hid => ?_) ?_
      fun r hr => ?_
    · obtain ⟨e, he, -, ack, hs⟩ := Journal.done_of_unrecorded hsound.own hr
      exact length_done_le h he hs
    · obtain ⟨⟨id', outcome⟩, hw, rfl⟩ := Option.map_eq_some_iff.mp hid
      obtain ⟨e, he, rfl, -⟩ := hsound.worker p id' outcome hp hw
      exact hfits.journal.ids e he
    · have := depth_boundedReport_le (depth_turnReport_le (n := nesting)
        (hcatalog.trans (Nat.le_add_right _ 2)) hjobs os)
      rw [nesting] at this
      rw [Json.maxDepth]
      omega
    · obtain ⟨e, he, -, ack, hs⟩ := Journal.done_of_unrecorded hsound.own hr
      have := houtputs e he r ack hs
      rw [nesting] at this
      rw [Json.maxDepth]
      omega
  · intro store reports row hrow hsecret
    obtain ⟨reply, store', hpoll, hstate⟩ := poll_ok (p.worker.map Prod.fst) hdevice (hfits.credential p hp)
      (hone.trans (by decide)) hrow hsecret
    have hkept : keptReport (boundedReport (turnReport catalog os jobs)).toJson =
        (boundedReport (turnReport catalog os jobs)).toJson := by
      rw [keptReport, if_neg]
      have := hreport.short
      rw [reportLimit] at this
      omega
    refine ⟨reply, store', ?_⟩
    simp only [Store.pollReport, hpoll, hkept, hstate, bind, Except.bind, pure, Except.pure, Standing.known.injEq]

/-- The agent that joins, and has executed one command, sends the result to the server. -/
theorem control_survives_joining : ∃ s, Run Platform.zero (fun _ => true) (System.initial fun _ => []) joining s ∧
    ∃ p results, (s.agents zeros).process = some p ∧ p.request (s.agents zeros).journal = .ok (.poll zeros zeros results none) ∧
      Passes frame ((Request.poll zeros zeros results none).toJson
        (boundedReport (turnReport ⟨[("folders", .arr [.obj []])], List.pairwise_singleton _ _⟩ "linux" [])).toJson) := by
  obtain ⟨s, h, -, hp, hj⟩ := run_joining
  obtain ⟨-, -, -, hpoll⟩ := control_survives (P := Platform.zero) (fun _ => show isHash zeros = true by decide +kernel) h
    zeros ⟨[("folders", .arr [.obj []])], List.pairwise_singleton _ _⟩ "linux" []
  obtain ⟨results, hrequest, -, hpass, -⟩ := hpoll (by decide) (fun _ hj => absurd hj List.not_mem_nil) (fun e he r ack hs => by
    rw [hj] at he
    obtain rfl := List.mem_singleton.mp he
    cases hs
    decide) _ hp
  exact ⟨s, h, _, results, hp, hrequest, hpass⟩

end channel

end Everywhere.Central
