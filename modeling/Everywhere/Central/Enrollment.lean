import Everywhere.Central.Commands

/-!
# Enrollment

An invitation is used once, and it may be used again by the device that used it, to repeat a request whose answer was lost. Both
are decided in one transaction (`Store.enroll`). What the registry has bound, no later operation unbinds
(`Binds`), and a bound invitation is a trace of the request that used it (`Explained`).

* `enrollment_binds` — **an enrollment binds once**, in every sequence of operations.
-/

namespace Everywhere.Central

open Library

variable {P : Platform} {readable : Bytes → Bool} {s s' s'' : Store}

/-! ### Operations -/

/-- A request to be registered. -/
structure Enrollment where
  /-- The token of the invitation. -/
  invitation : String
  /-- The credential. -/
  credential : String
  /-- The name of the device. -/
  name : String
  /-- The certificate. -/
  certificate : Bytes

/-- The registration of a device at some time. -/
def Enrollment.run (P : Platform) (readable : Bytes → Bool) (now : ℕ) (e : Enrollment) (s : Store) :
    Result (Reply × Store) :=
  s.enroll P readable now e.invitation e.credential e.name e.certificate

/-- An operation on the registry. -/
inductive Change where
  /-- Somebody is invited. -/
  | invite (label token : String) (reachable : Bool) (now : ℕ)
  /-- A device asks to be registered. -/
  | enroll (now : ℕ) (e : Enrollment)
  /-- A device asks for work. -/
  | poll (device credential : String) (results : List CommandResult) (active : Option String)
  /-- A device is approved or revoked. -/
  | setDevice (device : String) (approved : Bool)
  /-- Commands are queued. -/
  | queue (commands : List (String × Json × String))
  /-- A command is withdrawn. -/
  | cancel (id : String)

/-- The registry after a transaction that succeeded or was rolled back. -/
def settle (s : Store) (r : Result Store) : Store :=
  match r with
  | .ok s' => s'
  | .error _ => s

/-- The registry after an operation. -/
def Change.apply (P : Platform) (readable : Bytes → Bool) (s : Store) : Change → Store
  | invite label token reachable now => settle s (s.invite P label token reachable now)
  | enroll now e => settle s ((e.run P readable now s).map Prod.snd)
  | poll device credential results active => settle s ((s.poll P device credential results active).map Prod.snd)
  | setDevice device approved => settle s (s.setDevice device approved)
  | queue commands => settle s (s.queue commands)
  | cancel id => settle s (s.cancel id)

/-- The registry after a sequence of operations. -/
def history (P : Platform) (readable : Bytes → Bool) (changes : List Change) (s : Store) : Store :=
  changes.foldl (Change.apply P readable) s

/-! ### What stays bound -/

/-- No two invitations have one hash, and no two devices one certificate. -/
structure Distinct (s : Store) : Prop where
  /-- The invitations. -/
  invites : s.invites.Pairwise fun i j => i.hash ≠ j.hash
  /-- The devices. -/
  devices : s.devices.Pairwise fun d e => d.id ≠ e.id

/-- What was bound is bound. -/
structure Binds (s s' : Store) : Prop where
  /-- A used invitation stays as it is. -/
  invites : ∀ i ∈ s.invites, i.device ≠ none → i ∈ s'.invites
  /-- A device keeps its credential and its certificate. -/
  devices : ∀ d ∈ s.devices, ∃ d' ∈ s'.devices, d'.id = d.id ∧ d'.credential = d.credential ∧
    d'.certificate = d.certificate

theorem Binds.refl (s : Store) : Binds s s := ⟨fun _ h _ => h, fun d h => ⟨d, h, rfl, rfl, rfl⟩⟩

theorem Binds.trans (h : Binds s s') (h' : Binds s' s'') : Binds s s'' := by
  refine ⟨fun i hi hd => h'.invites i (h.invites i hi hd) hd, fun d hd => ?_⟩
  obtain ⟨d', hd', hid, hc, hcert⟩ := h.devices d hd
  obtain ⟨d'', hd'', hid', hc', hcert'⟩ := h'.devices d' hd'
  exact ⟨d'', hd'', hid'.trans hid, hc'.trans hc, hcert'.trans hcert⟩

theorem binds_of_eq (hi : s'.invites = s.invites) (hd : s'.devices = s.devices) : Binds s s' :=
  ⟨fun _ h _ => hi ▸ h, fun d h => ⟨d, hd ▸ h, rfl, rfl, rfl⟩⟩

theorem eq_of_pairwise {α κ : Type} {key : α → κ} {l : List α} (h : l.Pairwise fun a b => key a ≠ key b) {a b : α}
    (ha : a ∈ l) (hb : b ∈ l) (hk : key a = key b) : a = b := by
  induction l with
  | nil => cases ha
  | cons c l ih =>
    obtain ⟨hc, hl⟩ := List.pairwise_cons.mp h
    rcases List.mem_cons.mp ha with rfl | ha' <;> rcases List.mem_cons.mp hb with rfl | hb'
    · rfl
    · exact absurd hk (hc b hb')
    · exact absurd hk.symm (hc a ha')
    · exact ih hl ha' hb'

theorem find?_eq_some_of_pairwise {α κ : Type} [DecidableEq κ] {key : α → κ} {l : List α}
    (h : l.Pairwise fun a b => key a ≠ key b) {a : α} (ha : a ∈ l) : l.find? (fun b => key b = key a) = some a := by
  cases hf : l.find? (fun b => key b = key a) with
  | none => simpa using List.find?_eq_none.mp hf a ha
  | some b =>
    have hb := List.mem_of_find?_eq_some hf
    have hk : key b = key a := by simpa using List.find?_some hf
    rw [eq_of_pairwise h hb ha hk]

/-! ### What an enrollment does -/

/-- The request passes the checks that do not depend on the registry. -/
def Enrollment.Proper (readable : Bytes → Bool) (e : Enrollment) : Prop :=
  isHash e.invitation = true ∧ isHash e.credential = true ∧
    (e.name.toList.all isWhitespace = false ∧ e.name.utf8ByteSize ≤ 120 ∧ e.name.toList.any isControl = false) ∧
    e.certificate.length ≤ 8192 ∧ readable e.certificate = true

/-- The request repeats one that was accepted. -/
def Enrollment.Repeats (P : Platform) (e : Enrollment) (s : Store) : Prop :=
  ∃ i ∈ s.invites, i.hash = secretHash P e.invitation ∧ i.device = some (fingerprint P e.certificate) ∧
    ∃ d ∈ s.devices, d.id = fingerprint P e.certificate ∧ d.credential = secretHash P e.credential

/-- The request is the first of a device that is not known, with an invitation that may be used. -/
def Enrollment.First (P : Platform) (now : ℕ) (e : Enrollment) (s : Store) : Prop :=
  (∃ i ∈ s.invites, i.hash = secretHash P e.invitation ∧ i.device = none ∧ now ≤ i.expires) ∧
    ∀ d ∈ s.devices, d.id ≠ fingerprint P e.certificate

/-- The registry with a new device. -/
def Enrollment.added (P : Platform) (e : Enrollment) (s : Store) : Store :=
  { s with
    invites := s.invites.map fun i =>
      if i.hash = secretHash P e.invitation then { i with device := some (fingerprint P e.certificate) } else i
    devices := s.devices ++
      [⟨fingerprint P e.certificate, secretHash P e.credential, e.certificate, .pending⟩] }

/-- An accepted request is a repeated one or a first one. -/
theorem enroll_cases {e : Enrollment} {now : ℕ} {reply : Reply} (h : e.run P readable now s = .ok (reply, s')) :
    e.Proper readable ∧ reply = .ofState .registered ∧
      (e.Repeats P s ∧ s' = s ∨ e.First P now s ∧ s' = e.added P s) := by
  simp only [Enrollment.run, Store.enroll, validPeer, ensure_bind_eq_ok] at h
  obtain ⟨hi, hc, hn, hl, hr, h⟩ := h
  refine ⟨⟨hi, hc, hn, hl, hr⟩, ?_⟩
  split at h
  · cases h
  · rename_i hash expires used hfind
    obtain ⟨⟨hused, hcred⟩, h⟩ := ensure_bind_eq_ok.mp h
    obtain ⟨rfl, rfl⟩ := Prod.mk.inj (pure_eq_ok.mp h)
    refine ⟨rfl, .inl ⟨⟨_, List.mem_of_find?_eq_some hfind, ?_, by rw [hused], ?_⟩, rfl⟩⟩
    · simpa using List.find?_some hfind
    · obtain ⟨d, hd, hdc⟩ := Option.map_eq_some_iff.mp hcred
      exact ⟨d, List.mem_of_find?_eq_some hd, by simpa using List.find?_some hd, hdc⟩
  · rename_i hash expires hfind
    rw [ensure_bind_eq_ok, ensure_bind_eq_ok, ensure_bind_eq_ok] at h
    obtain ⟨hexpires, -, hnew, h⟩ := h
    obtain ⟨rfl, rfl⟩ := Prod.mk.inj (pure_eq_ok.mp h)
    exact ⟨rfl, .inr ⟨⟨⟨_, List.mem_of_find?_eq_some hfind, by simpa using List.find?_some hfind, rfl, hexpires⟩, hnew⟩, rfl⟩⟩

/-- A repeated request is accepted and changes nothing. -/
theorem run_repeats {e : Enrollment} (hs : Distinct s) (hp : e.Proper readable) (h : e.Repeats P s) (now : ℕ) :
    e.run P readable now s = .ok (.ofState .registered, s) := by
  obtain ⟨i, hi, hhash, hdevice, d, hd, hid, hcred⟩ := h
  obtain ⟨hinv, hc, hn, hl, hr⟩ := hp
  have hfind : s.invites.find? (·.hash = secretHash P e.invitation) = some i := by
    rw [← hhash]
    exact find?_eq_some_of_pairwise hs.invites hi
  have hfind' : s.devices.find? (·.id = fingerprint P e.certificate) = some d := by
    rw [← hid]
    exact find?_eq_some_of_pairwise hs.devices hd
  obtain ⟨hash, expires, used⟩ := i
  dsimp only at hdevice
  subst hdevice
  simp only [Enrollment.run, Store.enroll, validPeer, ensure_bind_eq_ok]
  refine ⟨hinv, hc, hn, hl, hr, ?_⟩
  rw [hfind]
  refine ensure_bind_eq_ok.mpr ⟨⟨rfl, ?_⟩, rfl⟩
  rw [hfind', Option.map_some, hcred]

/-! ### What the operations keep -/

theorem settle_induction {r : Result Store} {Q : Store → Prop} (hs : Q s) (h : ∀ s', r = .ok s' → Q s') :
    Q (settle s r) := by
  cases r with
  | error e => exact hs
  | ok s' => exact h s' rfl

theorem poll_tables {device credential : String} {results : List CommandResult} {active : Option String}
    (h : (s.poll P device credential results active).map Prod.snd = .ok s') :
    s'.invites = s.invites ∧ s'.devices = s.devices := by
  cases hpoll : s.poll P device credential results active with
  | error e =>
    rw [hpoll] at h
    cases h
  | ok r =>
    obtain ⟨reply, t⟩ := r
    rw [hpoll] at h
    obtain rfl : t = s' := Except.ok.inj h
    obtain ⟨hp⟩ := polled hpoll
    refine ⟨?_, hp.devices⟩
    simp only [Store.poll, validPeer, ensure_bind_eq_ok] at hpoll
    obtain ⟨-, -, -, hpoll⟩ := hpoll
    split at hpoll
    · cases hpoll
    · rw [ensure_bind_eq_ok] at hpoll
      obtain ⟨-, hpoll⟩ := hpoll
      split_ifs at hpoll
      · split at hpoll
        all_goals
          obtain ⟨-, rfl⟩ := Prod.mk.inj (pure_eq_ok.mp hpoll)
          rfl
      · obtain ⟨-, rfl⟩ := Prod.mk.inj (pure_eq_ok.mp hpoll)
        rfl

theorem queue_tables {commands : List (String × Json × String)} (h : s.queue commands = .ok s') :
    s'.invites = s.invites ∧ s'.devices = s.devices := by
  induction commands generalizing s with
  | nil =>
    obtain rfl := pure_eq_ok.mp h
    exact ⟨rfl, rfl⟩
  | cons c commands ih =>
    obtain ⟨t, hone, hrest⟩ := bind_eq_ok.mp h
    simp only [Store.queueOne, ensure_bind_eq_ok] at hone
    obtain ⟨-, -, -, hone⟩ := hone
    obtain rfl := pure_eq_ok.mp hone
    have htables := ih hrest
    exact htables

/-- What a change keeps: distinct rows, and bindings. -/
structure Retains (s s' : Store) : Prop where
  /-- The rows stay distinct. -/
  distinct : Distinct s'
  /-- What was bound is bound. -/
  binds : Binds s s'

theorem keeps_of_eq (hs : Distinct s) (h : s'.invites = s.invites ∧ s'.devices = s.devices) : Retains s s' :=
  ⟨⟨h.1 ▸ hs.invites, h.2 ▸ hs.devices⟩, binds_of_eq h.1 h.2⟩

theorem keeps_invite {label token : String} {reachable : Bool} {now : ℕ} (hs : Distinct s)
    (h : s.invite P label token reachable now = .ok s') : Retains s s' := by
  simp only [Store.invite, ensure_bind_eq_ok] at h
  obtain ⟨-, -, hnew, h⟩ := h
  obtain rfl := pure_eq_ok.mp h
  refine ⟨⟨List.pairwise_append.mpr ⟨hs.invites, by simp, fun i hi j hj => ?_⟩, hs.devices⟩,
    fun i hi _ => List.mem_append_left _ hi, (Binds.refl s).devices⟩
  rw [List.mem_singleton.mp hj]
  exact hnew i hi

theorem keeps_setDevice {device : String} {approved : Bool} (hs : Distinct s) (h : s.setDevice device approved = .ok s') :
    Retains s s' := by
  simp only [Store.setDevice, validPeer, ensure_bind_eq_ok] at h
  obtain ⟨-, -, h⟩ := h
  obtain rfl := pure_eq_ok.mp h
  refine ⟨⟨hs.invites, List.pairwise_map.mpr (hs.devices.imp fun hne => ?_)⟩, fun _ hi _ => hi, fun d hd =>
    ⟨_, List.mem_map_of_mem hd, ?_⟩⟩
  · split_ifs <;> exact hne
  · split_ifs <;> exact ⟨rfl, rfl, rfl⟩

theorem keeps_added {e : Enrollment} {now : ℕ} (hs : Distinct s) (h : e.First P now s) : Retains s (e.added P s) := by
  obtain ⟨⟨i, hi, hhash, hunused, -⟩, hnew⟩ := h
  refine ⟨⟨List.pairwise_map.mpr (hs.invites.imp fun hne => ?_), List.pairwise_append.mpr ⟨hs.devices, by simp, ?_⟩⟩,
    fun j hj hused => ?_, fun d hd => ⟨d, List.mem_append_left _ hd, rfl, rfl, rfl⟩⟩
  · split_ifs <;> exact hne
  · intro d hd d' hd'
    rw [List.mem_singleton.mp hd']
    exact hnew d hd
  · -- a used invitation is not the one that is used now
    have hne : j.hash ≠ secretHash P e.invitation := fun he => by
      rw [eq_of_pairwise hs.invites hj hi (he.trans hhash.symm)] at hused
      exact hused hunused
    exact List.mem_map.mpr ⟨j, hj, if_neg hne⟩

/-- **A change keeps what is bound.** -/
theorem keeps_apply (P : Platform) (readable : Bytes → Bool) (hs : Distinct s) (c : Change) : Retains s (c.apply P readable s) := by
  have hsame : Retains s s := ⟨hs, .refl s⟩
  cases c with
  | invite label token reachable now => exact settle_induction hsame fun s' h => keeps_invite hs h
  | enroll now e =>
    refine settle_induction hsame fun s' h => ?_
    cases hrun : e.run P readable now s with
    | error error =>
      rw [hrun] at h
      cases h
    | ok r =>
      obtain ⟨reply, t⟩ := r
      rw [hrun] at h
      obtain rfl : t = s' := Except.ok.inj h
      rcases (enroll_cases hrun).2.2 with ⟨-, rfl⟩ | ⟨hfirst, rfl⟩
      · exact hsame
      · exact keeps_added hs hfirst
  | poll device credential results active => exact settle_induction hsame fun s' h => keeps_of_eq hs (poll_tables h)
  | setDevice device approved => exact settle_induction hsame fun s' h => keeps_setDevice hs h
  | queue commands => exact settle_induction hsame fun s' h => keeps_of_eq hs (queue_tables h)
  | cancel id =>
    refine settle_induction hsame fun s' h => ?_
    obtain ⟨-, h⟩ := ensure_bind_eq_ok.mp h
    obtain rfl := pure_eq_ok.mp h
    exact keeps_of_eq hs ⟨rfl, rfl⟩

/-- Operations one after the other keep what is bound. -/
theorem keeps_history (P : Platform) (readable : Bytes → Bool) (hs : Distinct s) (changes : List Change) :
    Retains s (history P readable changes s) := by
  induction changes generalizing s with
  | nil => exact ⟨hs, .refl s⟩
  | cons c changes ih =>
    have hc := keeps_apply P readable hs c
    have hrest := ih hc.distinct
    exact ⟨hrest.distinct, hc.binds.trans hrest.binds⟩

theorem distinct_empty : Distinct .empty := ⟨.nil, .nil⟩

/-! ### Where a binding comes from -/

/-- The request was accepted in the course of some operations. -/
def Accepted (P : Platform) (readable : Bytes → Bool) (changes : List Change) (e : Enrollment) : Prop :=
  ∃ before after now, changes = before ++ .enroll now e :: after ∧
    ∃ reply s', e.run P readable now (history P readable before .empty) = .ok (reply, s')

theorem Accepted.append {changes : List Change} {e : Enrollment} (h : Accepted P readable changes e) (c : Change) :
    Accepted P readable (changes ++ [c]) e := by
  obtain ⟨before, after, now, rfl, hrun⟩ := h
  exact ⟨before, after ++ [c], now, by simp, hrun⟩

/-- A used invitation is a trace of a request that was accepted. -/
def Explained (P : Platform) (readable : Bytes → Bool) (changes : List Change) (s : Store) : Prop :=
  ∀ i ∈ s.invites, ∀ device, i.device = some device → ∃ e, Accepted P readable changes e ∧
    i.hash = secretHash P e.invitation ∧ device = fingerprint P e.certificate ∧
    ∃ d ∈ s.devices, d.id = device ∧ d.credential = secretHash P e.credential

theorem history_append (changes : List Change) (c : Change) (s : Store) :
    history P readable (changes ++ [c]) s = c.apply P readable (history P readable changes s) := by
  simp [history]

/-- Unless it uses an invitation, an operation leaves no new trace. -/
theorem Explained.change {changes : List Change} {c : Change} (h : Explained P readable changes s) (hk : Retains s s')
    (hnew : ∀ i ∈ s'.invites, i.device ≠ none → i ∈ s.invites) : Explained P readable (changes ++ [c]) s' := by
  intro i hi device hdevice
  obtain ⟨e, he, hhash, hprint, d, hd, hid, hcred⟩ := h i (hnew i hi (by simp [hdevice])) device hdevice
  obtain ⟨d', hd', hid', hcred', -⟩ := hk.binds.devices d hd
  exact ⟨e, he.append c, hhash, hprint, d', hd', hid'.trans hid, hcred'.trans hcred⟩

theorem Explained.of_eq {changes : List Change} {c : Change} (h : Explained P readable changes s) (hs : Distinct s)
    (he : s'.invites = s.invites ∧ s'.devices = s.devices) : Explained P readable (changes ++ [c]) s' :=
  h.change (keeps_of_eq hs he) fun _ hi _ => he.1 ▸ hi

/-- **Every binding comes from an accepted request.** -/
theorem explained_history (changes : List Change) : Explained P readable changes (history P readable changes .empty) := by
  induction changes using List.reverseRecOn with
  | nil =>
    intro i hi
    cases hi
  | append_singleton changes c ih =>
    rw [history_append]
    have hs := (keeps_history P readable distinct_empty changes).distinct
    have hsame := @Explained.of_eq P readable _ _ changes c ih hs ⟨rfl, rfl⟩
    cases c with
    | invite label token reachable now =>
      refine settle_induction hsame fun s' h => ih.change (keeps_invite hs h) fun i hi hused => ?_
      simp only [Store.invite, ensure_bind_eq_ok] at h
      obtain ⟨-, -, -, h⟩ := h
      obtain rfl := pure_eq_ok.mp h
      rcases List.mem_append.mp hi with hi | hi
      · exact hi
      · rw [List.mem_singleton.mp hi] at hused
        exact absurd rfl hused
    | enroll now e =>
      refine settle_induction hsame fun s' h => ?_
      cases hrun : e.run P readable now (history P readable changes .empty) with
      | error error =>
        rw [hrun] at h
        cases h
      | ok r =>
        obtain ⟨reply, t⟩ := r
        rw [hrun] at h
        obtain rfl : t = s' := Except.ok.inj h
        rcases (enroll_cases hrun).2.2 with ⟨-, rfl⟩ | ⟨hfirst, rfl⟩
        · exact hsame
        · intro i hi device hdevice
          obtain ⟨j, hj, rfl⟩ := List.mem_map.mp hi
          by_cases hhash : j.hash = secretHash P e.invitation
          · rw [if_pos hhash] at hdevice ⊢
            obtain rfl := Option.some.inj hdevice
            exact ⟨e, ⟨changes, [], now, rfl, reply, _, hrun⟩, hhash, rfl, _,
              List.mem_append_right _ (List.mem_singleton_self _), rfl, rfl⟩
          · rw [if_neg hhash] at hdevice ⊢
            obtain ⟨e', he', hhash', hprint, d, hd, hid, hcred⟩ := ih j hj device hdevice
            exact ⟨e', he'.append _, hhash', hprint, d, List.mem_append_left _ hd, hid, hcred⟩
    | poll device credential results active => exact settle_induction hsame fun s' h => ih.of_eq hs (poll_tables h)
    | setDevice device approved =>
      refine settle_induction hsame fun s' h => ih.change (keeps_setDevice hs h) fun i hi _ => ?_
      simp only [Store.setDevice, validPeer, ensure_bind_eq_ok] at h
      obtain ⟨-, -, h⟩ := h
      obtain rfl := pure_eq_ok.mp h
      exact hi
    | queue commands => exact settle_induction hsame fun s' h => ih.of_eq hs (queue_tables h)
    | cancel id =>
      refine settle_induction hsame fun s' h => ih.of_eq hs ?_
      obtain ⟨-, h⟩ := ensure_bind_eq_ok.mp h
      obtain rfl := pure_eq_ok.mp h
      exact ⟨rfl, rfl⟩

theorem secretHash_injective (hP : Function.Injective P.blake3) : Function.Injective (secretHash P) := by
  intro a b h
  have hbytes : utf8 a = utf8 b := hP h
  have := congrArg ofUtf8 hbytes
  rwa [ofUtf8_utf8, ofUtf8_utf8, Option.some.injEq] at this

/-- After a request was accepted, it is one that can be repeated. -/
theorem repeats_of_run {e : Enrollment} {now : ℕ} {reply : Reply} (h : e.run P readable now s = .ok (reply, s')) :
    e.Repeats P s' := by
  rcases (enroll_cases h).2.2 with ⟨hrepeats, rfl⟩ | ⟨⟨⟨i, hi, hhash, -, -⟩, -⟩, rfl⟩
  · exact hrepeats
  · refine ⟨_, List.mem_map_of_mem hi, ?_, ?_, _, List.mem_append_right _ (List.mem_singleton_self _), rfl, rfl⟩
    · rw [if_pos hhash]
      exact hhash
    · rw [if_pos hhash]

theorem Enrollment.Repeats.mono {e : Enrollment} (h : e.Repeats P s) (hb : Binds s s') : e.Repeats P s' := by
  obtain ⟨i, hi, hhash, hdevice, d, hd, hid, hcred⟩ := h
  obtain ⟨d', hd', hid', hcred', -⟩ := hb.devices d hd
  exact ⟨i, hb.invites i hi (by simp [hdevice]), hhash, hdevice, d', hd', hid'.trans hid, hcred'.trans hcred⟩

/-- Two requests with the same invitation, credential and certificate. -/
def Enrollment.Same (e e' : Enrollment) : Prop :=
  e'.invitation = e.invitation ∧ e'.credential = e.credential ∧ e'.certificate = e.certificate

/-- **An enrollment binds once.** In every sequence of operations on an empty registry: an invitation that was used by a
device stays used by it, a device stays registered with its credential and its certificate, and an accepted request is
accepted again at any later time and changes nothing. A request that is neither a repeated one nor the first of an unknown
device, with an unused and unexpired invitation, fails and changes nothing. No request makes a device approved. -/
theorem enrollment_binds (P : Platform) (hP : Function.Injective P.blake3) (readable : Bytes → Bool)
    (before : List Change) :
    (∀ after, ∀ i ∈ (history P readable before .empty).invites, ∀ device, i.device = some device →
      ∀ i' ∈ (history P readable (before ++ after) .empty).invites, i'.hash = i.hash → i'.device = some device) ∧
    (∀ after, ∀ d ∈ (history P readable before .empty).devices,
      (∃ d' ∈ (history P readable (before ++ after) .empty).devices, d'.id = d.id) ∧
      ∀ d' ∈ (history P readable (before ++ after) .empty).devices, d'.id = d.id →
        d'.credential = d.credential ∧ d'.certificate = d.certificate) ∧
    (∀ e, Accepted P readable before e → ∀ e', e.Same e' → e'.Proper readable → ∀ now,
      e'.run P readable now (history P readable before .empty) =
        .ok (.ofState .registered, history P readable before .empty)) ∧
    (∀ now e, (¬ ∃ e', Accepted P readable before e' ∧ e'.Same e) →
      ¬ e.First P now (history P readable before .empty) →
      (∃ error, e.run P readable now (history P readable before .empty) = .error error) ∧
      history P readable (before ++ [.enroll now e]) .empty = history P readable before .empty) ∧
    ∀ now e, ∀ d ∈ (history P readable (before ++ [.enroll now e]) .empty).devices, d.state = .approved →
      d ∈ (history P readable before .empty).devices := by
  have hs := (keeps_history P readable distinct_empty before).distinct
  have hafter : ∀ after, history P readable (before ++ after) .empty =
      history P readable after (history P readable before .empty) := fun after => List.foldl_append
  have hkeeps := fun after => keeps_history P readable hs after
  refine ⟨fun after i hi device hdevice i' hi' hhash => ?_, fun after d hd => ?_, fun e he e' hsame hproper now => ?_,
    fun now e hrepeat hfirst => ?_, fun now e d hd happroved => ?_⟩
  · rw [hafter] at hi'
    have hstays := (hkeeps after).binds.invites i hi (by simp [hdevice])
    rw [eq_of_pairwise (hkeeps after).distinct.invites hi' hstays hhash]
    exact hdevice
  · rw [hafter]
    obtain ⟨d', hd', hid, hcred, hcert⟩ := (hkeeps after).binds.devices d hd
    refine ⟨⟨d', hd', hid⟩, fun d'' hd'' hid' => ?_⟩
    rw [eq_of_pairwise (hkeeps after).distinct.devices hd'' hd' (hid'.trans hid.symm)]
    exact ⟨hcred, hcert⟩
  · obtain ⟨first, rest, now', rfl, reply, s', hrun⟩ := he
    have hfirst := (keeps_history P readable distinct_empty first).distinct
    have happly : Change.apply P readable (history P readable first .empty) (.enroll now' e) = s' := by
      change settle _ ((e.run P readable now' _).map Prod.snd) = s'
      rw [hrun]
      rfl
    have hlater : history P readable (first ++ .enroll now' e :: rest) .empty = history P readable rest s' := by
      rw [← happly]
      simp [history]
    have hs' : Distinct s' := by
      rw [← happly]
      exact (keeps_apply P readable hfirst _).distinct
    have hrepeats : e'.Repeats P (history P readable rest s') := by
      obtain ⟨hinv, hcred, hcert⟩ := hsame
      have h := (repeats_of_run hrun).mono (keeps_history P readable hs' rest).binds
      rwa [Enrollment.Repeats, ← hinv, ← hcred, ← hcert] at h
    rw [hlater]
    exact run_repeats (keeps_history P readable hs' rest).distinct hproper hrepeats now
  · cases hrun : e.run P readable now (history P readable before .empty) with
    | error error =>
      refine ⟨⟨error, rfl⟩, ?_⟩
      rw [history_append]
      change settle _ ((e.run P readable now _).map Prod.snd) = _
      rw [hrun]
      rfl
    | ok r =>
      obtain ⟨reply, s'⟩ := r
      rcases (enroll_cases hrun).2.2 with ⟨⟨i, hi, hhash, hdevice, d, hd, hid, hcred⟩, -⟩ | ⟨h, -⟩
      · obtain ⟨e', he', hhash', hprint, d', hd', hid', hcred'⟩ := explained_history before i hi _ hdevice
        obtain rfl := eq_of_pairwise hs.devices hd' hd (hid'.trans hid.symm)
        exact absurd ⟨e', he', secretHash_injective hP (hhash.symm.trans hhash'),
          secretHash_injective hP (hcred.symm.trans hcred'), hP hprint⟩ hrepeat
      · exact absurd h hfirst
  · rw [history_append] at hd
    change d ∈ (settle _ ((e.run P readable now _).map Prod.snd)).devices at hd
    cases hrun : e.run P readable now (history P readable before .empty) with
    | error error =>
      rw [hrun] at hd
      exact hd
    | ok r =>
      obtain ⟨reply, s'⟩ := r
      rw [hrun] at hd
      change d ∈ s'.devices at hd
      rcases (enroll_cases hrun).2.2 with ⟨-, rfl⟩ | ⟨-, rfl⟩
      · exact hd
      · rcases List.mem_append.mp hd with hd | hd
        · exact hd
        · rw [List.mem_singleton.mp hd] at happroved
          cases happroved

/-- A device that enrolls, and repeats its request later. -/
theorem enrollment_binds_repeated : ∃ (e : Enrollment) (s : Store),
    e.run .sample (fun _ => true) 9 s = .ok (.ofState .registered, s) := by
  let secret : String := String.ofList (List.replicate 64 'a')
  let e : Enrollment := ⟨secret, secret, "laptop", [7]⟩
  let changes : List Change := [.invite "laptop" secret true 0, .enroll 1 e]
  have hrun : (e.run .sample (fun _ => true) 1
      (history .sample (fun _ => true) [.invite "laptop" secret true 0] .empty)).toOption.isSome := by
    decide +kernel
  obtain ⟨⟨reply, s'⟩, hrun⟩ := exists_eq_ok hrun
  have hproper : e.Proper fun _ => true := by
    refine ⟨?_, ?_, ?_, ?_, rfl⟩ <;> decide +kernel
  exact ⟨e, _, (enrollment_binds .sample Platform.sample_blake3_injective (fun _ => true) changes).2.2.1 e
    ⟨[.invite "laptop" secret true 0], [], 1, rfl, reply, s', hrun⟩ e ⟨rfl, rfl, rfl⟩ hproper 9⟩

end Everywhere.Central
