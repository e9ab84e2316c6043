import Everywhere.Versions.Merge

/-!
# Editing

An edit makes one revision on top of all heads of a version set (`Versions.edit`). Its clock is the least one that has seen
every head and counts the edit itself.

* `edit_observes` — **an edit has seen everything**: what the version set knows is superseded, a later merge with it or with
  anything in it brings nothing back, and an edit fails only for one of five reasons.
-/

namespace Everywhere

open Library

/-! ### Names in a clock -/

namespace Clock

variable {a b c c' : Clock} {device : String}

/-- Every entry of the clock is one that `validate` accepts. -/
def Named (c : Clock) : Prop := ∀ d n, c.counters[d]? = some n → (d ≠ "" ∧ d.utf8ByteSize ≤ 128) ∧ 0 < n

theorem named_default : default.Named := by
  intro d n h
  simp [default] at h

theorem Valid.named (h : c.Valid) : c.Named := by
  intro d n hd
  obtain ⟨hne, hsize, hpos⟩ := (valid_iff.mp h).2 _ (Std.ExtTreeMap.mem_toList_iff_getElem?_eq_some.mpr hd)
  exact ⟨⟨hne, hsize⟩, hpos⟩

theorem Named.insert (h : c.Named) {d : String} {n : ℕ} (hd : d ≠ "" ∧ d.utf8ByteSize ≤ 128) (hn : 0 < n) :
    (⟨c.counters.insert d n⟩ : Clock).Named := by
  intro d' n' h'
  change (c.counters.insert d n)[d']? = some n' at h'
  rw [Std.ExtTreeMap.getElem?_insert] at h'
  split_ifs at h' with he
  · obtain rfl : d = d' := by simpa using he
    obtain rfl : n = n' := by simpa using h'
    exact ⟨hd, hn⟩
  · exact h d' n' h'

theorem Named.merge (ha : a.Named) (hb : b.Named) : (a.merge b).Named := by
  have hloop : ∀ (l : List (String × ℕ)) (m : Std.ExtTreeMap String ℕ),
      (∀ e ∈ l, (e.1 ≠ "" ∧ e.1.utf8ByteSize ≤ 128) ∧ 0 < e.2) → (⟨m⟩ : Clock).Named →
      (⟨l.foldl (fun result e => result.insert e.1 (max (result.getD e.1 0) e.2)) m⟩ : Clock).Named := by
    intro l
    induction l with
    | nil => exact fun m _ hm => hm
    | cons e l ih =>
      intro m hl hm
      obtain ⟨hname, hpos⟩ := hl e (by simp)
      exact ih _ (fun x hx => hl x (by simp [hx])) (Named.insert hm hname (lt_max_of_lt_right hpos))
  rw [Clock.merge, Std.ExtTreeMap.foldl_eq_foldl_toList]
  refine hloop _ _ (fun e he => ?_) ha
  exact hb e.1 e.2 (Std.ExtTreeMap.mem_toList_iff_getElem?_eq_some.mp he)

/-- A clock that has seen an edit is valid, if it is not too large. -/
theorem Named.valid_advance (h : c.Named) (hadvance : c.advance device = .ok c') (hsize : c'.counters.size ≤ 128) :
    c'.Valid := by
  rw [advance, ensure_bind_eq_ok, ensure_bind_eq_ok, pure_eq_ok] at hadvance
  obtain ⟨hdevice, -, rfl⟩ := hadvance
  refine valid_iff.mpr ⟨⟨?_, hsize⟩, fun e he => ?_⟩
  · change (c.counters.insert device (c.get device + 1)).size ≠ 0
    rw [Std.ExtTreeMap.size_insert]
    split_ifs with hm
    · exact fun h0 => Std.ExtTreeMap.ne_empty_of_mem hm (Std.ExtTreeMap.eq_empty_iff_size_eq_zero.mpr h0)
    · omega
  · obtain ⟨⟨hne, hlen⟩, hpos⟩ := h.insert hdevice (Nat.succ_pos _) _ _
      (Std.ExtTreeMap.mem_toList_iff_getElem?_eq_some.mp he)
    exact ⟨hne, hlen, hpos⟩

end Clock

namespace Versions

variable {P : Platform} {v r w : Versions} {device : String} {content : Content}

/-! ### The clock of a version set -/

/-- The largest count of a device in a version set. -/
def largest (v : Versions) (device : String) : ℕ := (v.heads.map fun h => h.clock.get device).foldl max 0

theorem get_foldl_clock (l : List Revision) (c : Clock) (d : String) :
    (l.foldl (fun v h => v.merge h.clock) c).get d = (l.map fun h => h.clock.get d).foldl max (c.get d) := by
  induction l generalizing c with
  | nil => rfl
  | cons h l ih =>
    change (l.foldl _ (c.merge h.clock)).get d = _
    rw [ih, Clock.get_merge]
    rfl

theorem get_clock (v : Versions) (d : String) : v.clock.get d = v.largest d := by
  rw [clock, get_foldl_clock, Clock.get_default, largest]

/-- The clock of valid heads has only entries that are accepted. -/
theorem named_clock (h : v.Fits) : v.clock.Named := by
  have hloop : ∀ (l : List Revision) (c : Clock), (∀ h ∈ l, h.Valid) → c.Named →
      (l.foldl (fun v h => v.merge h.clock) c).Named := by
    intro l
    induction l with
    | nil => exact fun c _ hc => hc
    | cons h l ih => exact fun c hl hc => ih _ (fun x hx => hl x (by simp [hx])) (hc.merge (hl h (by simp)).clock.named)
  exact hloop _ _ h.valid Clock.named_default

/-! ### What an edit has seen -/

theorem le_largest {h : Revision} (hh : h ∈ v.heads) (d : String) : h.clock.get d ≤ v.largest d := by
  have hloop : ∀ (l : List ℕ) (n : ℕ), n ≤ l.foldl max n ∧ ∀ k ∈ l, k ≤ l.foldl max n := by
    intro l
    induction l with
    | nil => simp
    | cons k l ih =>
      intro n
      obtain ⟨hn, hl⟩ := ih (max n k)
      refine ⟨(le_max_left n k).trans hn, fun k' hk' => ?_⟩
      rcases List.mem_cons.mp hk' with rfl | hk'
      · exact (le_max_right n k').trans hn
      · exact hl k' hk'
  exact (hloop _ 0).2 _ (List.mem_map.mpr ⟨h, hh, rfl⟩)

/-- What is known is superseded. -/
theorem lt_of_known {clock : Clock} (hclock : v.clock.advance device = .ok clock) {x : Revision} (hx : x ∈ v.known) :
    x.clock.get < clock.get := by
  obtain ⟨h, hh, hxh⟩ := mem_known.mp hx
  have hle : x.clock.get ≤ v.clock.get := (Revision.clock_le_of_le hxh).trans fun d => by
    rw [get_clock]
    exact le_largest hh d
  rw [Clock.get_advance hclock]
  refine lt_of_le_of_ne (fun d => ?_) fun he => ?_
  · rw [Function.update_apply]
    split_ifs with hd
    · exact (hle d).trans (by rw [hd]; exact Nat.le_succ _)
    · exact hle d
  · have hdevice := congrFun he device
    rw [Function.update_self] at hdevice
    exact absurd (hdevice ▸ hle device) (Nat.not_succ_le_self _)

/-- A merge of an edit with what it has seen changes nothing. -/
theorem join_edit (hhash : Function.Injective P.blake3) (hedit : v.edit P device content = .ok r)
    (hw : v.join P w = .ok v) : r.join P w = .ok r ∧ w.join P r = .ok r := by
  have hid : ∀ s : Set Revision, Set.InjOn (Revision.id P) s := fun s => (Revision.id_injective hhash).injOn
  obtain ⟨clock, hclock, rfl, hr⟩ := edit_eq_ok.mp hedit
  have hcontained : w.known ≤ v.known := by
    have hknown := known_join (hid _) hw
    exact le_sup_right.trans_eq hknown.symm
  have hseen : w.known ≤ (⟨[⟨clock, content⟩]⟩ : Versions).known := by
    intro x hx
    refine mem_known.mpr ⟨⟨clock, content⟩, by simp, .inr ?_⟩
    exact lt_of_known hclock (hcontained hx)
  have hjoin := join_eq_left (hid _) hr (fits_of_join hw).2
    ((consistent_of_join (hid _) hw).mono Set.subset_union_right) hseen
  exact ⟨hjoin, (join_comm (hid _)).mp hjoin⟩

/-! ### When an edit fails -/

/-- The ways in which an edit fails. -/
inductive Refusal (device : String) (content : Content) (v : Versions) : Prop where
  /-- The device has no valid name. -/
  | device (h : device = "" ∨ 128 < device.utf8ByteSize)
  /-- The hash of the content is not one. -/
  | content {hash : String} (h : content = .file hash) (hh : isHash hash = false)
  /-- The device has made all its edits. -/
  | counter (h : u64Max ≤ v.largest device)
  /-- The clock has too many entries. -/
  | clock {clock : Clock} (h : v.clock.advance device = .ok clock) (hsize : 128 < clock.counters.size)
  /-- The text is too long. -/
  | size {clock : Clock} (h : v.clock.advance device = .ok clock)
      (hsize : 64 * 1024 < (⟨[⟨clock, content⟩]⟩ : Versions).size)

/-- An edit fails for one of these reasons. -/
theorem refusal_of_error {error : Error} (hv : v.Canonical P) (h : v.edit P device content = .error error) :
    Refusal device content v := by
  cases hadvance : v.clock.advance device with
  | error e =>
    by_cases hdevice : device ≠ "" ∧ device.utf8ByteSize ≤ 128
    · refine .counter ?_
      by_contra hlt
      have hroom : v.clock.get device + 1 ≤ u64Max := by
        rw [get_clock]
        exact Nat.succ_le_of_lt (Nat.lt_of_not_le hlt)
      have hok : v.clock.advance device = .ok ⟨v.clock.counters.insert device (v.clock.get device + 1)⟩ :=
        ensure_bind_eq_ok.mpr ⟨hdevice, ensure_bind_eq_ok.mpr ⟨hroom, rfl⟩⟩
      rw [hok] at hadvance
      cases hadvance
    · refine .device ?_
      by_cases hempty : device = ""
      · exact .inl hempty
      · exact .inr (Nat.lt_of_not_le fun hle => hdevice ⟨hempty, hle⟩)
  | ok clock =>
    by_cases hsize : clock.counters.size ≤ 128
    · by_cases htext : (⟨[⟨clock, content⟩]⟩ : Versions).size ≤ 64 * 1024
      · have hvalid := (named_clock hv.toFits).valid_advance hadvance hsize
        by_cases hcontent : Revision.Valid ⟨clock, content⟩
        · have hr : (⟨[⟨clock, content⟩]⟩ : Versions).Canonical P :=
            ⟨⟨htext, by simp, by simpa using hcontent⟩, by simp, by simp [headSet], by simp [Consistent, headSet]⟩
          rw [edit_eq_ok.mpr ⟨clock, hadvance, rfl, hr⟩] at h
          cases h
        · cases content with
          | file hash =>
            refine .content rfl (Bool.eq_false_iff.mpr fun hh => hcontent ?_)
            rw [Revision.Valid, Revision.check, bind_eq_ok]
            exact ⟨(), hvalid, ensure_eq_ok.mpr hh⟩
          | directory | deleted =>
            refine absurd ?_ hcontent
            rw [Revision.Valid, Revision.check, bind_eq_ok]
            exact ⟨(), hvalid, rfl⟩
      · exact .size hadvance (Nat.lt_of_not_le htext)
    · exact .clock hadvance (Nat.lt_of_not_le hsize)

/-- **An edit has seen everything.** For every version set in the form in which merges leave it, and every device and content:
if an edit succeeds, its result has one head, whose clock is after that of every revision that is known, and counts one more
edit of the device than any head and no more of any other device than some head; a merge of the result with the version set, or
with anything that has been merged into it, is the result. If it fails, it is for one of five reasons. -/
theorem edit_observes (P : Platform) (hhash : Function.Injective P.blake3) (v : Versions) (hv : v.Canonical P)
    (device : String) (content : Content) :
    (∀ r, v.edit P device content = .ok r → ∃ e : Revision, r.heads = [e] ∧ e.content = content ∧
      (∀ x ∈ v.known, x.clock.relation e.clock = .before) ∧
      e.clock.get device = v.largest device + 1 ∧ (∀ d, d ≠ device → e.clock.get d = v.largest d) ∧
      (r.join P v = .ok r ∧ v.join P r = .ok r) ∧
      ∀ w : Versions, v.join P w = .ok v → r.join P w = .ok r ∧ w.join P r = .ok r) ∧
    ∀ error, v.edit P device content = .error error → Refusal device content v := by
  refine ⟨fun r hedit => ?_, fun error h => refusal_of_error hv h⟩
  have hself : v.join P v = .ok v :=
    join_eq_left (Revision.id_injective hhash).injOn hv hv.toFits hv.consistent le_rfl
  obtain ⟨clock, hclock, hr, -⟩ := edit_eq_ok.mp hedit
  have hget := Clock.get_advance hclock
  refine ⟨⟨clock, content⟩, by rw [hr], rfl, fun x hx => Clock.relation_eq_before.mpr (lt_of_known hclock hx), ?_,
    fun d hd => ?_, join_edit hhash hedit hself, fun w hw => join_edit hhash hedit hw⟩
  · rw [hget, Function.update_self, get_clock]
  · rw [hget, Function.update_of_ne hd, get_clock]

/-- A directory was made on one device and deleted on another; an edit of the first settles the conflict. -/
theorem edit_observes_conflict :
    let x : Revision := ⟨⟨.ofList [("a", 1)]⟩, .directory⟩
    let y : Revision := ⟨⟨.ofList [("b", 1)]⟩, .deleted⟩
    (⟨[x]⟩ : Versions).join .sample ⟨[y]⟩ = .ok ⟨[x, y]⟩ ∧
    ∃ r e, (⟨[x, y]⟩ : Versions).edit .sample "a" .directory = .ok r ∧ r.heads = [e] ∧
      e.clock.get "a" = 2 ∧ e.clock.get "b" = 1 ∧ r.join .sample ⟨[x, y]⟩ = .ok r ∧ r.join .sample ⟨[x]⟩ = .ok r := by
  intro x y
  have hjoin : (⟨[x]⟩ : Versions).join .sample ⟨[y]⟩ = .ok ⟨[x, y]⟩ := by decide +kernel
  obtain ⟨r, hr⟩ : ∃ r, (⟨[x, y]⟩ : Versions).edit .sample "a" .directory = .ok r := exists_eq_ok (by decide +kernel)
  obtain ⟨e, he, -, -, hown, hothers, hself, hearlier⟩ := (edit_observes .sample Platform.sample_blake3_injective ⟨[x, y]⟩
    (canonical_join hjoin) "a" .directory).1 r hr
  refine ⟨hjoin, r, e, hr, he, ?_, ?_, hself.1, (hearlier ⟨[x]⟩ (by decide +kernel)).1⟩
  · rw [hown]
    decide +kernel
  · rw [hothers "b" (by decide)]
    decide +kernel

end Versions

end Everywhere
