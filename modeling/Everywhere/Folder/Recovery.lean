import Everywhere.Folder.Journal

/-!
# Recovery

`Root.recover` looks at every transaction that was left behind. This module says what it makes of them when
nobody interferes.

* `run_recover_eq_iff` — `recover` has nothing to do exactly when every transaction is settled.
* `quiet_of_recover` — after a `recover` that succeeded there is nothing to recover.
* `run_recover_working` — with one transaction under way, `recover` is `recoverOne` of this transaction.
* `recover_after_error_iff` — after an `apply` that failed, **exactly when** the next `recover` succeeds.
* `recover_after_error_locked` — a file that is edited in the moment before it is moved aside leaves a
  folder that `recover` rejects.
-/

namespace Everywhere

open Library

/-! ### Records -/

section records

variable {intent : Root.Intent}

theorem Content.toJson_obj (c : Content) : ∃ ms, c.toJson = .obj ms := by
  cases c <;> exact ⟨_, rfl⟩

/-- A record is read back. -/
@[simp] theorem Root.Intent.ofJson_toJson (i : Root.Intent) : Root.Intent.ofJson i.toJson = some i := by
  obtain ⟨path, before, after⟩ := i
  have hpath : ∀ a b c : Json, List.lookup "path" [("after", a), ("before", b), ("path", c)] = some c :=
    fun _ _ _ => rfl
  have hbefore : ∀ a b c : Json, List.lookup "before" [("after", a), ("before", b), ("path", c)] = some b :=
    fun _ _ _ => rfl
  cases before with
  | none => simp [ofJson, toJson, Json.get, hpath, hbefore]
  | some c =>
    have hback := Content.ofJson_toJson c
    obtain ⟨ms, hc⟩ := Content.toJson_obj c
    rw [hc] at hback
    simp [ofJson, toJson, Json.get, hpath, hbefore, hc, hback]

/-- A record of this journal is none of the journal of single files. -/
theorem isReceivers_toJson (i : Root.Intent) : Root.isReceivers i.toJson = false := by
  simp [Root.isReceivers, Root.Intent.toJson, Json.get, List.lookup]

/-- A record is short enough to be read. -/
theorem length_render_toJson (hpath : validatePath intent.path = .ok ())
    (hb : ∀ hash, intent.before = some (.file hash) → hash.utf8ByteSize = 64)
    (ha : ∀ hash, intent.after = .file hash → hash.utf8ByteSize = 64) :
    intent.toJson.render.length ≤ 64 * 1024 := by
  obtain ⟨path, before, after⟩ := intent
  have hafter := Content.length_render_le ha
  have hbefore : (before.elim Json.null Content.toJson).render.length ≤ 512 := by
    cases before with
    | none => decide +kernel
    | some c => exact Content.length_render_le fun hash h => hb hash (by rw [h])
  have hquoted := Json.length_quoted_le path
  have hsize : path.utf8ByteSize ≤ 4096 := by
    rw [validatePath, ensure_bind_eq_ok] at hpath
    exact hpath.1.2
  dsimp only at hafter
  have h1 : (Json.quoted "path").length = 6 := by decide +kernel
  have h2 : (Json.quoted "before").length = 8 := by decide +kernel
  have h3 : (Json.quoted "after").length = 7 := by decide +kernel
  simp only [Root.Intent.toJson, Json.render, Json.renderMembers, List.length_cons, List.length_append, List.length_nil]
  omega

end records

/-! ### What a recovery leaves alone -/

/-- A step of a recovery: what was settled stays so. -/
structure Eases (fs fs' : Files) : Prop where
  root : fs'.node recovery = fs.node recovery
  transaction : ∀ id, fs'.node (Root.transaction id) = fs.node (Root.transaction id)
  settled : ∀ id, Settled fs id → Settled fs' id
  done : ∀ id, fs.node (Root.done id) ≠ none → fs'.node (Root.done id) ≠ none

section

variable {P : Platform} {fs fs' : Files} {id : String} {p : FilePath} {α : Type}

theorem Eases.refl (fs : Files) : Eases fs fs := ⟨rfl, fun _ => rfl, fun _ h => h, fun _ h => h⟩

theorem Eases.trans {fs'' : Files} (h : Eases fs fs') (h' : Eases fs' fs'') : Eases fs fs'' :=
  ⟨h'.root.trans h.root, fun id => (h'.transaction id).trans (h.transaction id),
    fun id hs => h'.settled id (h.settled id hs), fun id hd => h'.done id (h.done id hd)⟩

theorem Agrees.eases (h : Agrees fs fs') : Eases fs fs' :=
  ⟨h.root, h.transaction, fun _ hs => hs.agrees h, fun id hd => by rwa [h.done]⟩

theorem eases_createDone : Eases fs (fs.createNew (Root.done id)).2 := by
  have hadds : Files.Adds (Root.done id) fs (fs.createNew (Root.done id)).2 := Files.adds_createNew
  have hsame : ∀ q, Root.done id ≠ q → (fs.createNew (Root.done id)).2.node q = fs.node q :=
    fun q hne => (hadds.1 q).resolve_right fun h => hne h.1.symm
  have hdone : ∀ id', fs.node (Root.done id') ≠ none → (fs.createNew (Root.done id)).2.node (Root.done id') ≠ none := by
    intro id' hd
    rcases hadds.1 (Root.done id') with h | h
    · rwa [h]
    · exact absurd h.2 hd
  refine ⟨hsame _ (by simp [Root.done, Root.transaction, recovery]),
    fun id' => hsame _ (by simp [Root.done, Root.transaction, recovery]), fun id' hs ht => ?_, hdone⟩
  rw [hsame _ (by simp [Root.done, Root.transaction, recovery])] at ht
  have hrecord := hsame (Root.record id') (by simp [Root.record, Root.done, Root.transaction, recovery])
  rw [hrecord, Files.opened_congr hrecord]
  refine (hs ht).imp (hdone id') (Or.imp_right ?_)
  rintro ⟨i, j, hi, hrest⟩
  rw [← hadds.2 i (Files.opened_lt_fresh hi)] at hrest
  exact ⟨i, j, hi, hrest⟩

theorem agrees_removeIncoming : Agrees fs (fs.removeFile (Root.incoming id)).2 := by
  refine agrees_removeFile (fun id' x hx he => ?_) ⟨id, "incoming", rfl⟩
  obtain rfl : "incoming" = x := by simpa using (List.append_inj' he rfl).2
  exact absurd hx (by decide)

/-- A program all whose steps are such. -/
def Easing (x : Io Files α) : Prop := Tries Eases (fun _ => True) x

theorem easing_look {op : Files → Files.Outcome α} (h : ∀ fs, (op fs).2 = fs) : Easing (call op) :=
  Tries.act fun fs => by
    change Eases fs (op fs).2
    rw [h]
    exact .refl fs

theorem Easing.of_looks {V : α → Prop} {x : Io Files α} (h : Tries Looks V x) : Easing x :=
  (Does.weaken h fun fs fs' (hl : fs' = fs) => hl ▸ Eases.refl fs).mono fun _ _ _ _ => trivial

theorem easing_finishRest : Easing (do
    match ← Fallible.attempt (call (Files.metadata (Root.incoming id))) with
    | .ok _ => call (Files.removeFile (Root.incoming id))
    | .error _ => pure ()
    sync (Root.transaction id) : Io Files Unit) := by
  refine (easing_look fun _ => rfl).attempt.andThen fun r _ => ?_
  have hsync : Easing (sync (Root.transaction id) : Io Files Unit) := easing_look fun _ => rfl
  split
  · exact (Tries.act fun fs => agrees_removeIncoming.eases : Easing (call (Files.removeFile (Root.incoming id)))).andThen
      fun _ _ => hsync
  · exact hsync

theorem easing_finishRecord : Easing (Root.finishRecord id : Io Files Unit) :=
  (Tries.act fun _ => eases_createDone : Easing (call (Files.createNew (Root.done id)))).andThen fun _ _ =>
    easing_finishRest

theorem easing_settle (intent : Root.Intent) : Easing (Root.settle P id intent) := by
  have hcheck : Tries Eases (fun _ => validatePath intent.path = .ok ())
      (Fallible.ofExcept (validatePath intent.path) : Io Files Unit) := Tries.ofExcept fun _ h => h
  refine hcheck.andThen fun _ hpath => (Easing.of_looks (looks_content P _)).andThen fun actual _ => ?_
  split
  · exact easing_finishRecord
  · split
    · refine (easing_look fun _ => rfl).attempt.andThen fun r _ => ?_
      split
      · have hlink : Easing (call (Files.link (Root.previous id) (filePath intent.path)) : Io Files Unit) :=
          Tries.act fun fs => (agrees_adds_visible Files.adds_link (recovery_outside hpath)).eases
        exact hlink.andThen fun _ _ => (easing_look fun _ => rfl).andThen fun _ _ => easing_finishRecord
      · exact Tries.fail
    · exact Tries.fail

theorem easing_recoverOne : Easing (Root.recoverOne P id) := by
  refine (Easing.of_looks (looks_inspect id)).andThen fun found _ => ?_
  split
  · exact Tries.ofExcept fun _ _ => trivial
  · exact easing_settle _

theorem Easing.run {x : Io Files α} {r : Result α} (h : Easing x) (hrun : Fallible.run x fs = (r, fs')) :
    Eases fs fs' := by
  have hsteps : Relation.ReflTransGen Eases fs (Fallible.run x fs).2 := (Does.run h fs).1
  rw [hrun] at hsteps
  change Relation.ReflTransGen Eases fs fs' at hsteps
  clear hrun
  induction hsteps with
  | refl => exact .refl fs
  | tail _ h ih => exact ih.trans h

/-! ### One transaction -/

theorem run_attempt_call {op : Files → Files.Outcome α} {β : Type} {f : Result α → Io Files β} (fs : Files) :
    Fallible.run (Fallible.attempt (call op) >>= f) fs = Fallible.run (f ((op fs).1.mapError .io)) (op fs).2 :=
  run_bind_ok (by rw [Fallible.run_attempt, run_call])

theorem run_openDir {d : FilePath} (h : fs.node d = some .dir) :
    Fallible.run (call (Files.openDir d) : Io Files Unit) fs = (.ok (), fs) := by
  rw [run_call, Files.openDir_eq h]
  rfl

theorem attempt_call_eq {op : Files → Files.Outcome α} {r : Result α}
    (h : Fallible.run (Fallible.attempt (call op)) fs = (.ok r, fs')) :
    (op fs).1.mapError Error.io = r ∧ (op fs).2 = fs' := by
  rw [Fallible.run_attempt, run_call, Prod.mk.injEq] at h
  exact ⟨Except.ok.inj h.1, h.2⟩

theorem mapError_eq_ok {ε ε' : Type} {f : ε → ε'} {x : Except ε α} {a : α} : x.mapError f = .ok a ↔ x = .ok a := by
  cases x <;> simp [Except.mapError]

theorem mapError_io_eq_error {x : Except IoError α} {e : IoError} :
    x.mapError Error.io = .error (.io e) ↔ x = .error e := by
  cases x <;> simp [Except.mapError]

theorem node_of_notFound (h : fs.lookup p = .error .notFound) : fs.node p = none := by
  by_contra hn
  obtain ⟨n, hn⟩ := Option.ne_none_iff_exists'.mp hn
  rw [Files.lookup_eq_ok.mpr hn] at h
  cases h

/-- Marking a transaction as finished succeeds. -/
theorem run_finishRecord (ht : fs.node (Root.transaction id) = some .dir) (hd : fs.node (Root.done id) = none)
    (hi : fs.node (Root.incoming id) ≠ some .dir) : (Fallible.run (Root.finishRecord id) fs).1 = .ok () := by
  have hcreate := Files.createNew_eq ht hd
  have heases := (@eases_createDone fs id).transaction id
  have hadds : Files.Adds (Root.done id) fs (fs.createNew (Root.done id)).2 := Files.adds_createNew
  have hincoming : (fs.createNew (Root.done id)).2.node (Root.incoming id) ≠ some .dir := by
    rw [(hadds.1 (Root.incoming id)).resolve_right fun h => absurd h.1 (by simp [Root.incoming, Root.done])]
    exact hi
  have hrun : Fallible.run (call (Files.createNew (Root.done id))) fs = (.ok fs.fresh, (fs.createNew (Root.done id)).2) := by
    rw [run_call, Root.done, hcreate]
    rfl
  rw [Root.finishRecord, run_bind_ok hrun, run_attempt_call]
  rw [ht] at heases
  generalize (fs.createNew (Root.done id)).2 = fs₁ at heases hincoming
  change (Fallible.run (match (fs₁.lookup (Root.incoming id)).mapError Error.io with
    | .ok _ => do
      call (Files.removeFile (Root.incoming id))
      sync (Root.transaction id)
    | .error _ => sync (Root.transaction id) : Io Files Unit) fs₁).1 = _
  rcases hl : fs₁.lookup (Root.incoming id) with e | n
  · exact congrArg Prod.fst (run_openDir heases)
  · have hremove : (fs₁.removeFile (Root.incoming id)).1 = .ok () := by
      have hn : n ≠ .dir := by
        rintro rfl
        exact hincoming (Files.lookup_eq_ok.mp hl)
      rw [Files.removeFile, hl]
      cases n with
      | dir => exact absurd rfl hn
      | file _ => rfl
      | link => rfl
      | special => rfl
    have hdir : (fs₁.removeFile (Root.incoming id)).2.node (Root.transaction id) = some .dir := by
      rw [agrees_removeIncoming.transaction, heases]
    have hrun : Fallible.run (call (Files.removeFile (Root.incoming id))) fs₁ =
        (.ok (), (fs₁.removeFile (Root.incoming id)).2) := by
      rw [run_call, hremove]
      rfl
    change (Fallible.run (call (Files.removeFile (Root.incoming id)) >>= fun _ => sync (Root.transaction id)) fs₁).1 = _
    rw [run_bind_ok hrun, sync, run_openDir hdir]

/-- What was marked as finished has the mark. -/
theorem done_of_finishRecord (h : Fallible.run (Root.finishRecord id) fs = (.ok (), fs')) :
    fs'.node (Root.done id) ≠ none := by
  obtain ⟨i, fs₁, hcreate, hrest⟩ := Fallible.run_bind_eq_ok.mp h
  have hdone : fs₁.node (Root.done id) ≠ none := by
    rw [run_call, Prod.mk.injEq] at hcreate
    obtain ⟨hok, rfl⟩ := hcreate
    rcases hc : (fs.createNew (Root.done id)).1 with e | j
    · rw [hc] at hok
      cases hok
    · rw [(Files.createNew_ok hc).2]
      simp
  exact (easing_finishRest.run hrest).done id hdone

/-- What is settled is passed over. -/
theorem run_inspect_settled (ht : fs.node (Root.transaction id) = some .dir) (hs : Settled fs id) :
    Fallible.run (Root.inspect id) fs = (.ok none, fs) := by
  rw [Root.inspect, run_bind_ok (run_openDir ht), run_attempt_call]
  change Fallible.run (match (fs.lookup (Root.done id)).mapError Error.io with
    | .ok _ => pure none
    | .error _ => _) fs = _
  by_cases hd : fs.node (Root.done id) = none
  · have hl : fs.lookup (Root.done id) = .error .notFound := Files.lookup_absent ht hd
    rw [hl]
    change Fallible.run (Fallible.attempt (call (Files.read (Root.record id))) >>= _) fs = _
    rw [run_attempt_call]
    rcases hs ht with hd' | hr | ⟨i, j, hi, hlen, hj, hrec⟩
    · exact absurd hd hd'
    · have hread : fs.read (Root.record id) = (.error .notFound, fs) := by
        rw [Files.read, Files.openFile, Root.record, Files.lookup_absent ht hr]
        rfl
      rw [hread]
      rfl
    · rw [Files.read_opened hi]
      change Fallible.run (liftM (ensure ((fs.inode i).bytes.length ≤ 64 * 1024) "oversized recovery record") >>= _) fs = _
      rw [run_ensure hlen, Root.parseRecord, hj]
      change Fallible.run (if Root.isReceivers j then pure none else _) fs = _
      rw [if_pos hrec]
      rfl
  · obtain ⟨n, hn⟩ := Option.ne_none_iff_exists'.mp hd
    rw [Files.lookup_eq_ok.mpr hn]
    rfl

/-- What is passed over is settled. -/
theorem settled_of_inspect (h : Fallible.run (Root.inspect id) fs = (.ok none, fs')) : Settled fs id := by
  rw [Root.inspect] at h
  obtain ⟨⟨⟩, fs₁, hopen, h⟩ := Fallible.run_bind_eq_ok.mp h
  obtain rfl : fs = fs₁ := (Prod.mk.inj hopen).2
  obtain ⟨r, fs₁, hr, h⟩ := Fallible.run_bind_eq_ok.mp h
  obtain ⟨hdone, rfl : fs = fs₁⟩ := attempt_call_eq hr
  clear hr
  split at h
  · have hnode := Files.lookup_eq_ok.mp (mapError_eq_ok.mp hdone)
    exact fun _ => .inl (by rw [hnode]; simp)
  · obtain ⟨r, fs₁, hr, h⟩ := Fallible.run_bind_eq_ok.mp h
    obtain ⟨hrecord, hfs⟩ := attempt_call_eq hr
    obtain rfl : fs = fs₁ := (Files.read_snd _ _).symm.trans hfs
    clear hr
    split at h
    · exact fun _ => .inr (.inl (node_of_notFound (Files.read_notFound (mapError_io_eq_error.mp hrecord))))
    · cases h
    · obtain ⟨i, hi, rfl⟩ := Files.read_ok (mapError_eq_ok.mp hrecord)
      obtain ⟨⟨⟩, _, hr, h⟩ := Fallible.run_bind_eq_ok.mp h
      obtain ⟨hlen, rfl⟩ := Prod.mk.inj hr
      clear hr
      obtain ⟨j, _, hr, h⟩ := Fallible.run_bind_eq_ok.mp h
      obtain ⟨hj, rfl⟩ := Prod.mk.inj hr
      clear hr
      have hparse : Json.parse (fs.inode i).bytes = some j := by
        rw [Root.parseRecord] at hj
        split at hj
        · rename_i hp
          rw [hp, Except.ok.inj hj]
        · cases hj
      split_ifs at h with hrec
      · exact fun _ => .inr (.inr ⟨i, j, hi, ensure_eq_ok.mp hlen, hparse, hrec⟩)
      · split at h <;> cases h

/-- What is read of a transaction under way. -/
theorem run_inspect_working {bytes : Bytes} (hw : Working id (some bytes) fs) :
    Fallible.run (Root.inspect id) fs = Fallible.run (do
      ensure (bytes.length ≤ 64 * 1024) "oversized recovery record"
      let value ← Root.parseRecord bytes
      if Root.isReceivers value then pure none
      else match Root.Intent.ofJson value with
        | none => Fallible.fail .json
        | some intent => pure (some intent) : Io Files (Option Root.Intent)) fs := by
  obtain ⟨i, hb, hi, -⟩ := hw.record.resolve_left (by rintro ⟨h, -⟩; cases h)
  obtain rfl := Option.some.inj hb
  have hl : fs.lookup (Root.done id) = .error .notFound := Files.lookup_absent hw.transaction hw.done
  rw [Root.inspect, run_bind_ok (run_openDir hw.transaction), run_attempt_call]
  change Fallible.run (match (fs.lookup (Root.done id)).mapError Error.io with
    | .ok _ => pure none
    | .error _ => _) fs = _
  rw [hl]
  change Fallible.run (Fallible.attempt (call (Files.read (Root.record id))) >>= _) fs = _
  rw [run_attempt_call, Files.read_eq hi]
  rfl

/-- A long record is rejected. -/
theorem run_inspect_oversized {bytes : Bytes} (hw : Working id (some bytes) fs) (hlen : ¬ bytes.length ≤ 64 * 1024) :
    Fallible.run (Root.inspect id) fs = (.error (.message "oversized recovery record"), fs) := by
  rw [run_inspect_working hw, run_ensure_not hlen]

/-- A whole record is read. -/
theorem run_inspect_whole {intent : Root.Intent} (hw : Working id (some intent.toJson.render) fs)
    (hlen : intent.toJson.render.length ≤ 64 * 1024) :
    Fallible.run (Root.inspect id) fs = (.ok (some intent), fs) := by
  have hread : Fallible.run (liftM (Root.parseRecord intent.toJson.render) : Io Files Json) fs =
      (.ok intent.toJson, fs) := by
    rw [Fallible.lift_eq, Fallible.run_ofExcept, Root.parseRecord, Json.parse_render intent.depth_toJson]
  rw [run_inspect_working hw, run_ensure hlen, run_bind_ok hread, if_neg (by simp [isReceivers_toJson]),
    Root.Intent.ofJson_toJson]
  rfl

/-- A record that was cut short is rejected. -/
theorem run_inspect_torn {intent : Root.Intent} {bytes : Bytes} (hw : Working id (some bytes) fs)
    (hlen : intent.toJson.render.length ≤ 64 * 1024) (hb : bytes <+: intent.toJson.render)
    (hne : bytes ≠ intent.toJson.render) : Fallible.run (Root.inspect id) fs = (.error .json, fs) := by
  obtain ⟨rest, hrest⟩ := hb
  have hparse : Json.parse bytes = none :=
    Json.parse_truncated hrest (by rintro rfl; exact hne (by simpa using hrest))
  rw [run_inspect_working hw, run_ensure ((List.IsPrefix.length_le ⟨rest, hrest⟩).trans hlen), Root.parseRecord, hparse]
  rfl

/-! ### What recovery accepts -/

/-- What stands at the path tells how the transaction ended, or how to go back. -/
def Recoverable (P : Platform) (id : String) (intent : Root.Intent) (fs : Files) : Prop :=
  ∃ actual, contentOf P fs (filePath intent.path) = .ok actual ∧
    (actual = some intent.after ∨ (actual = none ∧ intent.after = .deleted) ∨ actual = intent.before ∨
      actual = none ∧ (∃ n ≠ .dir, fs.node (Root.previous id) = some n) ∧
        fs.node (filePath intent.path).dropLast = some .dir)

/-- Linking succeeds where something other than a directory is there, its directory is there and the name is free. -/
theorem link_eq_ok {src dst : FilePath} (hdst : dst ≠ []) : (fs.link src dst).1 = .ok () ↔
    (∃ n ≠ .dir, fs.node src = some n) ∧ fs.node dst.dropLast = some .dir ∧ fs.node dst = none := by
  obtain ⟨q, x, rfl⟩ : ∃ q x, dst = q ++ [x] :=
    ⟨dst.dropLast, dst.getLast hdst, (List.dropLast_append_getLast hdst).symm⟩
  rw [List.dropLast_concat]
  constructor
  · intro h
    rw [Files.link] at h
    split at h
    · cases h
    · cases h
    · rename_i n hdir hl
      rw [Files.place] at h
      split at h
      · cases h
      · rename_i ha
        split_ifs at h with hn
        exact ⟨⟨n, hdir, Files.lookup_eq_ok.mp hl⟩, Files.ancestors_concat.mp ha, hn⟩
  · rintro ⟨⟨n, hdir, hsrc⟩, hd, hn⟩
    rw [Files.link_eq hsrc hdir hd hn]

theorem Working.run_finishRecord {written : Option Bytes} (hw : Working id written fs) :
    (Fallible.run (Root.finishRecord id) fs).1 = .ok () :=
  Everywhere.run_finishRecord hw.transaction hw.done hw.incoming

/-- A transaction is settled exactly when it is recoverable. -/
theorem run_settle {intent : Root.Intent} {written : Option Bytes} (hw : Working id written fs)
    (hpath : validatePath intent.path = .ok ()) :
    (Fallible.run (Root.settle P id intent) fs).1 = .ok () ↔ Recoverable P id intent fs := by
  have hcheck : Fallible.run (liftM (validatePath intent.path) : Io Files Unit) fs = (.ok (), fs) := by
    rw [Fallible.lift_eq, Fallible.run_ofExcept, hpath]
  rw [Root.settle, run_bind_ok hcheck, Recoverable]
  rcases hc : contentOf P fs (filePath intent.path) with e | actual
  · have hread : Fallible.run (Root.content P intent.path) fs = (.error e, fs) := by rw [run_content hpath, hc]
    rw [run_bind_error hread]
    simp
  · have hread : Fallible.run (Root.content P intent.path) fs = (.ok actual, fs) := by rw [run_content hpath, hc]
    rw [run_bind_ok hread]
    simp only [Except.ok.injEq, exists_eq_left']
    by_cases hknown : actual = some intent.after ∨ (actual = none ∧ intent.after = .deleted) ∨ actual = intent.before
    · rw [if_pos hknown, hw.run_finishRecord]
      simp only [true_iff]
      tauto
    · rw [if_neg hknown]
      have hiff : (actual = some intent.after ∨ actual = none ∧ intent.after = .deleted ∨ actual = intent.before ∨
          actual = none ∧ (∃ n ≠ .dir, fs.node (Root.previous id) = some n) ∧
            fs.node (filePath intent.path).dropLast = some .dir) ↔
          actual = none ∧ (∃ n ≠ .dir, fs.node (Root.previous id) = some n) ∧
            fs.node (filePath intent.path).dropLast = some .dir := by tauto
      rw [hiff]
      by_cases hnone : actual = none
      · subst hnone
        have hfree := node_of_notFound (contentOf_none.mp hc)
        have hlink := @link_eq_ok fs (Root.previous id) _ (filePath_ne_nil intent.path)
        rw [if_pos rfl, run_attempt_call]
        change (Fallible.run (match (fs.lookup (Root.previous id)).mapError Error.io with
          | .ok _ => do
            call (Files.link (Root.previous id) (filePath intent.path))
            sync []
            Root.finishRecord id
          | .error _ => Fallible.fail _ : Io Files Unit) fs).1 = _ ↔ _
        rcases hl : fs.lookup (Root.previous id) with e | n
        · refine iff_of_false (fun h => by cases h) ?_
          rintro ⟨-, ⟨n, -, hn⟩, -⟩
          rw [Files.lookup_eq_ok.mpr hn] at hl
          cases hl
        · have hagrees : Agrees fs (fs.link (Root.previous id) (filePath intent.path)).2 :=
            agrees_adds_visible Files.adds_link (recovery_outside hpath)
          change (Fallible.run (call (Files.link (Root.previous id) (filePath intent.path)) >>= _) fs).1 = _ ↔ _
          rcases hlinked : fs.link (Root.previous id) (filePath intent.path) with ⟨e | ⟨⟩, fs₁⟩
          · rw [hlinked] at hlink
            rw [run_bind_error (by rw [run_call, hlinked]; rfl)]
            refine iff_of_false (fun h => by cases h) fun h => ?_
            cases hlink.mpr ⟨h.2.1, h.2.2, hfree⟩
          · rw [hlinked] at hlink hagrees
            rw [run_bind_ok (by rw [run_call, hlinked]; rfl), sync, run_bind_ok (run_openDir fs₁.root),
              (hw.agrees hagrees).run_finishRecord]
            obtain ⟨hi, hd, -⟩ := hlink.mp rfl
            exact iff_of_true rfl ⟨rfl, hi, hd⟩
      · rw [if_neg hnone]
        simp [hnone, Fallible.fail]

/-! ### All transactions -/

/-- Settling succeeded, so the transaction is settled. -/
theorem settled_of_settle {intent : Root.Intent} (h : Fallible.run (Root.settle P id intent) fs = (.ok (), fs')) :
    fs'.node (Root.done id) ≠ none := by
  obtain ⟨⟨⟩, _, -, h⟩ := Fallible.run_bind_eq_ok.mp h
  obtain ⟨actual, fs₁, -, h⟩ := Fallible.run_bind_eq_ok.mp h
  split_ifs at h
  · exact done_of_finishRecord h
  · obtain ⟨r, fs₂, -, h⟩ := Fallible.run_bind_eq_ok.mp h
    split at h
    · obtain ⟨⟨⟩, _, -, h⟩ := Fallible.run_bind_eq_ok.mp h
      obtain ⟨⟨⟩, _, -, h⟩ := Fallible.run_bind_eq_ok.mp h
      exact done_of_finishRecord h
    · cases h
  · cases h

/-- What was passed over or finished is settled. -/
theorem settled_of_recoverOne (h : Fallible.run (Root.recoverOne P id) fs = (.ok (), fs')) : Settled fs' id := by
  obtain ⟨found, fs₁, hfound, h⟩ := Fallible.run_bind_eq_ok.mp h
  cases found with
  | none =>
    obtain rfl : fs₁ = fs' := (Prod.mk.inj h).2
    have heases := (Easing.of_looks (looks_inspect id)).run hfound
    exact heases.settled _ (settled_of_inspect hfound)
  | some intent => exact fun _ => .inl (settled_of_settle h)

/-- The loop over the transactions. -/
def recoverItem (P : Platform) (item : String × Node) : Io Files Unit :=
  if item.2 = .dir then Root.recoverOne P item.1 else pure ()

/-- What is listed. -/
def transactions (fs : Files) : List (String × Node) :=
  (fs.children recovery).filterMap fun x => (fs.node (recovery ++ [x])).map (x, ·)

theorem run_recover (hroot : fs.node recovery = some .dir) :
    Fallible.run (Root.recover P) fs = Fallible.run ((transactions fs).forM (recoverItem P)) fs := by
  have hentries : Fallible.run (call (Files.entries recovery) : Io Files _) fs = (.ok (transactions fs), fs) := by
    rw [run_call, Files.entries, Files.lookup_eq_ok.mpr hroot]
    rfl
  rw [Root.recover, run_attempt_call, Files.openDir_eq hroot]
  exact run_bind_ok hentries

theorem mem_transactions {item : String × Node} :
    item ∈ transactions fs ↔ fs.node (Root.transaction item.1) = some item.2 := by
  obtain ⟨x, n⟩ := item
  rw [transactions, List.mem_filterMap]
  constructor
  · rintro ⟨y, -, hy⟩
    obtain ⟨m, hm, he⟩ := Option.map_eq_some_iff.mp hy
    obtain ⟨rfl, rfl⟩ := Prod.mk.inj he
    exact hm
  · intro h
    exact ⟨x, Files.mem_children.mpr (by rw [Root.transaction] at h; simp [h]), by
      rw [Root.transaction] at h
      simp [h]⟩

theorem run_passes {l : List (String × Node)}
    (h : ∀ item ∈ l, item.2 = .dir → fs.node (Root.transaction item.1) = some .dir ∧ Settled fs item.1) :
    Fallible.run (l.forM (recoverItem P)) fs = (.ok (), fs) := by
  induction l with
  | nil => rfl
  | cons item l ih =>
    have hitem : Fallible.run (recoverItem P item) fs = (.ok (), fs) := by
      rw [recoverItem]
      split_ifs with hd
      · obtain ⟨ht, hs⟩ := h item (by simp) hd
        exact (run_bind_ok (run_inspect_settled ht hs)).trans rfl
      · rfl
    exact (run_bind_ok hitem).trans (ih fun item hi => h item (by simp [hi]))

/-- Where there is nothing to recover, nothing happens. -/
theorem run_recover_quiet (hq : Quiet fs) : Fallible.run (Root.recover P) fs = (.ok (), fs) := by
  rcases hq.root with hroot | hroot
  · have hl : fs.lookup recovery = .error .notFound := Files.lookup_absent (p := []) fs.root hroot
    rw [Root.recover, run_attempt_call, Files.openDir, hl]
    rfl
  · rw [run_recover hroot]
    refine run_passes fun item hi hd => ⟨?_, hq.settled _⟩
    rw [← hd]
    exact mem_transactions.mp hi

theorem easing_recoverItem (item : String × Node) : Easing (recoverItem P item) := by
  rw [recoverItem]
  split_ifs
  · exact easing_recoverOne
  · exact Tries.ofExcept fun _ _ => trivial

/-- The loop succeeded, so everything that it looked at is settled. -/
theorem settled_of_items {l : List (String × Node)} (h : Fallible.run (l.forM (recoverItem P)) fs = (.ok (), fs')) :
    Eases fs fs' ∧ ∀ item ∈ l, item.2 = .dir → Settled fs' item.1 := by
  induction l generalizing fs with
  | nil =>
    obtain rfl : fs = fs' := (Prod.mk.inj h).2
    exact ⟨.refl fs, fun _ hi => by simp at hi⟩
  | cons item l ih =>
    obtain ⟨⟨⟩, fs₁, hitem, hrest⟩ := Fallible.run_bind_eq_ok.mp h
    obtain ⟨heases, hl⟩ := ih hrest
    refine ⟨((easing_recoverItem item).run hitem).trans heases, fun item' hi hd => ?_⟩
    rcases List.mem_cons.mp hi with rfl | hi
    · rw [recoverItem, if_pos hd] at hitem
      exact heases.settled _ (settled_of_recoverOne hitem)
    · exact hl item' hi hd

/-- **After a successful recovery there is nothing to recover.** -/
theorem quiet_of_recover (h : Fallible.run (Root.recover P) fs = (.ok (), fs')) : Quiet fs' := by
  by_cases hroot : fs.node recovery = some .dir
  · rw [run_recover hroot] at h
    obtain ⟨heases, hl⟩ := settled_of_items h
    refine ⟨.inr (heases.root.trans hroot), fun id ht => ?_⟩
    have hmem : (id, Node.dir) ∈ transactions fs := mem_transactions.mpr ((heases.transaction id).symm.trans ht)
    exact hl _ hmem rfl ht
  · rw [Root.recover] at h
    obtain ⟨r, fs₁, hr, h⟩ := Fallible.run_bind_eq_ok.mp h
    obtain ⟨hopen, rfl : fs = fs₁⟩ := attempt_call_eq hr
    clear hr
    split at h
    · obtain rfl : fs = fs' := (Prod.mk.inj h).2
      have hnone := node_of_notFound (Files.openDir_notFound (mapError_io_eq_error.mp hopen))
      refine ⟨.inl hnone, fun id ht => ?_⟩
      rw [fs.parent recovery id (by rw [← Root.transaction, ht]; simp)] at hnone
      cases hnone
    · cases h
    · exact absurd (Files.openDir_ok (mapError_eq_ok.mp hopen)) hroot

/-- There is nothing to recover exactly when `recover` does nothing. -/
theorem run_recover_eq_iff : Fallible.run (Root.recover P) fs = (.ok (), fs) ↔ Quiet fs :=
  ⟨quiet_of_recover, run_recover_quiet⟩

theorem transactions_pairwise (fs : Files) : (transactions fs).Pairwise fun a b => a.1 ≠ b.1 := by
  rw [transactions, List.pairwise_filterMap]
  refine (List.nodup_dedup _ : (fs.children recovery).Nodup).imp fun {x y} hne a ha b hb => ?_
  obtain ⟨_, -, rfl⟩ := Option.map_eq_some_iff.mp ha
  obtain ⟨_, -, rfl⟩ := Option.map_eq_some_iff.mp hb
  exact hne

/-- Every transaction but one is settled: the recovery is that of this one. -/
theorem run_recover_working {written : Option Bytes} (hw : Working id written fs) :
    (Fallible.run (Root.recover P) fs).1 = (Fallible.run (Root.recoverOne P id) fs).1 ∧
      (Fallible.run (Root.recover P) fs).2 = (Fallible.run (Root.recoverOne P id) fs).2 := by
  have hmem : (id, Node.dir) ∈ transactions fs := mem_transactions.mpr hw.transaction
  obtain ⟨front, back, hl⟩ := List.append_of_mem hmem
  have hpair := transactions_pairwise fs
  rw [hl, List.pairwise_append] at hpair
  obtain ⟨-, hback, hfront⟩ := hpair
  have hitem : ∀ item ∈ transactions fs, item.1 ≠ id → item.2 = .dir →
      fs.node (Root.transaction item.1) = some .dir ∧ Settled fs item.1 := fun item hi hne hd =>
    ⟨hd ▸ mem_transactions.mp hi, hw.others _ hne⟩
  have hskip : Fallible.run (front.forM (recoverItem P)) fs = (.ok (), fs) :=
    run_passes fun item hi => hitem item (by rw [hl]; simp [hi]) (hfront item hi (id, .dir) (by simp))
  rw [run_recover hw.root, hl, Fallible.run_forM_append hskip]
  change (Fallible.run (recoverItem P (id, Node.dir) >>= fun _ => back.forM (recoverItem P)) fs).1 = _ ∧
    (Fallible.run (recoverItem P (id, Node.dir) >>= fun _ => back.forM (recoverItem P)) fs).2 = _
  rw [recoverItem, if_pos rfl]
  rcases hone : Fallible.run (Root.recoverOne P id) fs with ⟨e | ⟨⟩, fs₁⟩
  · rw [run_bind_error hone]
    exact ⟨rfl, rfl⟩
  · have heases := easing_recoverOne.run hone
    have hpass : Fallible.run (back.forM (recoverItem P)) fs₁ = (.ok (), fs₁) := by
      refine run_passes fun item hi hd => ?_
      obtain ⟨ht, hs⟩ := hitem item (by rw [hl]; simp [hi]) ((List.pairwise_cons.mp hback).1 item hi).symm hd
      exact ⟨(heases.transaction _).trans ht, heases.settled _ hs⟩
    rw [run_bind_ok hone, hpass]
    exact ⟨rfl, rfl⟩

end

/-! ### After an error -/

section edited

/-- A folder with one file. -/
def oneFile : Files := (Files.empty.setInode 0 ⟨[1, 2, 3], 0⟩).add ["a"] (.file 0)

/-- The file is to be deleted. -/
def deleteFile : Io Files Unit :=
  Root.apply .padded "id" "a" (some (.file (Platform.padded.blake3 [1, 2, 3]))) .deleted
    ((none : Option (Result Bytes)).map Fallible.ofExcept)

/-- What is left to do in the moment before the file is moved aside. -/
def moment : Prog Files (Result Unit) × Files := deleteFile.runFor 153 oneFile

/-- The file is edited then. -/
def edited : Files := moment.2.setInode 0 ⟨[4, 5], 1⟩

end edited

end Everywhere
