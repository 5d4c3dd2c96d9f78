import ZephyrSiot.Frontend
import ZephyrSiot.Theory.KeyedList
import ZephyrSiot.Theory.Machine

/-!
# Edits on the web page

The edits that are not yet saved overlay what the device reported (`pending_overlay`). An edit that
was sent stays with its POST: it is lost when that POST fails (`noneLost_iff`).
-/

namespace ZephyrSiot
open CStr Frontend KeyedList

/-- What identifies a point: its type and its key. -/
def UiPoint.pair (p : UiPoint) : Bytes × Bytes := (p.typ, p.key)

theorem UiPoint.pair_eq_iff {p : UiPoint} {typ key : Bytes} :
    p.pair = (typ, key) ↔ typ = p.typ ∧ key = p.key := by
  rw [pair, Prod.mk.injEq, eq_comm (a := p.typ), eq_comm (a := p.key)]

namespace Frontend

theorem updatePoint_eq (points : List UiPoint) (point : UiPoint) :
    updatePoint points point = put UiPoint.pair point points := by
  have hpred : (fun p : UiPoint => decide (point.typ = p.typ ∧ point.key = p.key)) =
      fun p => decide (p.pair = point.pair) := by
    funext p
    exact decide_eq_decide.mpr UiPoint.pair_eq_iff.symm
  rewrite [updatePoint, put, hpred]
  rfl

theorem updatePoints_eq (points newPoints : List UiPoint) :
    updatePoints points newPoints = puts UiPoint.pair newPoints points := by
  have hstep : (fun newPoint updated => updatePoint updated newPoint) = put UiPoint.pair := by
    funext point points
    exact updatePoint_eq points point
  rw [updatePoints, hstep, puts]

/-- A key that is not blank is looked up as it is. -/
theorem get_eq {key : Bytes} (h : key ≠ []) (points : List UiPoint) (typ : Bytes) :
    get points typ key = points.find? (·.pair = (typ, key)) := by
  rw [get, if_neg h]
  congr 1
  funext p
  exact decide_eq_decide.mpr UiPoint.pair_eq_iff.symm

end Frontend

/-! ## Pending edits -/

/-- The page after a message. -/
def pageStep (model : Model) (msg : Msg) : Model := (update msg model).1

/-- At most one pending edit under each pair. -/
def DistinctMods (model : Model) : Prop := (model.pointMods.map UiPoint.pair).Nodup

theorem distinctMods_init : DistinctMods Frontend.init.1 := List.nodup_nil

theorem distinctMods_step {model : Model} (h : DistinctMods model) (msg : Msg) :
    DistinctMods (pageStep model msg) := by
  cases msg with
  | tick posix => exact h
  | apiRespPointList result => cases result <;> exact h
  | apiRespPointPost result => cases result <;> exact h
  | editPoint points =>
    change ((updatePoints model.pointMods points).map UiPoint.pair).Nodup
    rw [updatePoints_eq]
    exact nodup_puts points h
  | apiPostPoints points => exact List.nodup_nil
  | discardEdits => exact List.nodup_nil

/-- **Pending edits overlay the device state**, whatever messages the page was sent. -/
theorem pending_overlay (msgs : List Msg) :
    let model := Machine.run pageStep init.1 msgs
    (model.pointMods.map UiPoint.pair).Nodup ∧
      ∀ pts, model.points = .success pts → ∀ typ key, key ≠ [] →
        (∀ edit ∈ model.pointMods, edit.typ = typ → edit.key = key →
            get (updatePoints pts model.pointMods) typ key = some edit) ∧
          ((∀ edit ∈ model.pointMods, ¬ (edit.typ = typ ∧ edit.key = key)) →
            get (updatePoints pts model.pointMods) typ key = get pts typ key) := by
  intro model
  have hmods : DistinctMods model :=
    Machine.run_invariant (P := fun _ => True) (I := DistinctMods)
      (fun model msg _ h => distinctMods_step h msg) distinctMods_init fun _ _ => trivial
  refine ⟨hmods, fun pts _ typ key hkey => ?_⟩
  have hget : get (updatePoints pts model.pointMods) typ key =
      (model.pointMods.find? (·.pair = (typ, key))).or (get pts typ key) := by
    rw [get_eq hkey, get_eq hkey, updatePoints_eq, find?_puts]
  rw [hget]
  constructor
  · rintro edit hedit rfl rfl
    have hfind : model.pointMods.find? (·.pair = (edit.typ, edit.key)) = some edit :=
      (find?_eq_some_iff hmods).mpr hedit
    rw [hfind]
    rfl
  · intro hnone
    have hfind : model.pointMods.find? (·.pair = (typ, key)) = none := by
      rw [List.find?_eq_none]
      exact fun edit hedit e => hnone edit hedit (Prod.mk.inj (of_decide_eq_true e))
    rw [hfind]
    rfl

/-- An edited name hides the one that is fetched after it. -/
theorem pending_overlay_name :
    get (updatePoints [⟨lit "description", lit "0", lit "STR", lit "shed"⟩]
        [⟨lit "description", lit "0", lit "STR", lit "barn"⟩]) (lit "description") (lit "0") =
      some ⟨lit "description", lit "0", lit "STR", lit "barn"⟩ :=
  ((pending_overlay
    [.editPoint [⟨lit "description", lit "0", lit "STR", lit "barn"⟩],
      .apiRespPointList (.ok [⟨lit "description", lit "0", lit "STR", lit "shed"⟩])]).2
    _ rfl (lit "description") (lit "0") (by decide)).1 _ List.mem_cons_self rfl rfl

/-! ## Saved edits -/

/-- The page and its requests. -/
structure PageSystem where
  model : Model
  /-- The bodies of the POSTs not yet answered. -/
  inFlight : List (List UiPoint)
  /-- The bodies of the POSTs answered `Ok`. -/
  taken : List (List UiPoint)
  /-- The points passed to `EditPoint` that no later one superseded and `DiscardEdits` did not
  drop. -/
  edits : List UiPoint

/-- A message that reaches the page. An answer is one to a POST in flight. -/
inductive PageEvent where
  | tick (posix : Int)
  | fetched (result : Except HttpError (List UiPoint))
  | edit (points : List UiPoint)
  | save (points : List UiPoint)
  | discard
  | answered (i : Nat) (result : Except HttpError Resp)

namespace PageSystem

def init : PageSystem := ⟨Frontend.init.1, [], [], []⟩

/-- `update`, and the POST that it may send. -/
def deliver (s : PageSystem) (msg : Msg) : PageSystem :=
  let (model, effect) := update msg s.model
  match effect with
  | .post points => { s with model := model, inFlight := s.inFlight ++ [points] }
  | _ => { s with model := model }

def step (s : PageSystem) : PageEvent → PageSystem
  | .tick posix => s.deliver (.tick posix)
  | .fetched result => s.deliver (.apiRespPointList result)
  | .edit points =>
    { s.deliver (.editPoint points) with
      edits := s.edits.filter (fun p => ∀ q ∈ points, q.pair ≠ p.pair) ++ points }
  | .save points => s.deliver (.apiPostPoints points)
  | .discard =>
    { s.deliver .discardEdits with edits := s.edits.filter (· ∉ s.model.pointMods) }
  | .answered i result =>
    match s.inFlight[i]? with
    | none => s
    | some body =>
      let taken := match result with
        | .ok _ => s.taken ++ [body]
        | .error _ => s.taken
      { s.deliver (.apiRespPointPost result) with inFlight := s.inFlight.eraseIdx i, taken := taken }

/-- The edit is pending, or in the body of a POST that is not yet answered or was answered `Ok`. -/
def Held (s : PageSystem) (p : UiPoint) : Prop :=
  p ∈ s.model.pointMods ∨ ∃ body ∈ s.inFlight ++ s.taken, p ∈ body

def NoneLost (s : PageSystem) : Prop := ∀ p ∈ s.edits, s.Held p

instance : DecidablePred NoneLost := fun s =>
  inferInstanceAs (Decidable (∀ p ∈ s.edits, _ ∨ ∃ body ∈ s.inFlight ++ s.taken, p ∈ body))

/-- What loses no edit. A POST may only fail when each edit in its body is pending again or in
another body, and of the points passed to `EditPoint` those behind another of their pair must be in
a body. -/
def Keeps (s : PageSystem) : PageEvent → Prop
  | .edit points => ∀ p ∈ points,
      points.find? (·.pair = p.pair) = some p ∨ ∃ body ∈ s.inFlight ++ s.taken, p ∈ body
  | .answered i (.error _) => ∀ body, s.inFlight[i]? = some body → ∀ p ∈ s.edits, p ∈ body →
      p ∈ s.model.pointMods ∨ ∃ other ∈ s.inFlight.eraseIdx i ++ s.taken, p ∈ other
  | _ => True

variable {s : PageSystem}

theorem distinctMods (h : DistinctMods s.model) (e : PageEvent) : DistinctMods (s.step e).model := by
  have hdeliver (msg : Msg) : DistinctMods (s.deliver msg).model := by
    have := distinctMods_step h msg
    unfold deliver
    dsimp only
    split <;> exact this
  cases e with
  | tick posix => exact hdeliver _
  | fetched result => exact hdeliver _
  | edit points => exact hdeliver (.editPoint points)
  | save points => exact hdeliver _
  | discard => exact hdeliver .discardEdits
  | answered i result =>
    unfold step
    dsimp only
    split
    · exact h
    · exact hdeliver (.apiRespPointPost result)

/-- An edit step. -/
theorem noneLost_edit (hmods : DistinctMods s.model) (h : s.NoneLost) (points : List UiPoint) :
    (s.step (.edit points)).NoneLost ↔ s.Keeps (.edit points) := by
  have hmem (p : UiPoint) : p ∈ updatePoints s.model.pointMods points ↔
      points.find? (·.pair = p.pair) = some p ∨
        p ∈ s.model.pointMods ∧ ∀ q ∈ points, q.pair ≠ p.pair := by
    rw [updatePoints_eq]
    exact mem_puts_iff hmods
  change (∀ p ∈ s.edits.filter _ ++ points,
    p ∈ updatePoints s.model.pointMods points ∨ ∃ body ∈ s.inFlight ++ s.taken, p ∈ body) ↔ _
  constructor
  · intro hall p hp
    rcases hall p (List.mem_append_right _ hp) with hp' | hbody
    · exact .inl (((hmem p).mp hp').resolve_right fun hold => hold.2 p hp rfl)
    · exact .inr hbody
  · intro hkeeps p hp
    rcases List.mem_append.mp hp with hold | hnew
    · obtain ⟨hedit, hother⟩ := List.mem_filter.mp hold
      have hother := of_decide_eq_true hother
      exact (h p hedit).imp_left fun hmod => (hmem p).mpr (.inr ⟨hmod, hother⟩)
    · exact (hkeeps p hnew).imp_left fun hfirst => (hmem p).mpr (.inl hfirst)

/-- The POST that is answered is no longer in flight. -/
theorem step_answered {i : Nat} {body : List UiPoint} (hbody : s.inFlight[i]? = some body)
    (result : Except HttpError Resp) :
    s.step (.answered i result) =
      { s.deliver (.apiRespPointPost result) with
        inFlight := s.inFlight.eraseIdx i
        taken := match result with
          | .ok _ => s.taken ++ [body]
          | .error _ => s.taken } := by
  rw [step, hbody]

theorem mem_inFlight_iff {i : Nat} {body : List UiPoint} (hbody : s.inFlight[i]? = some body)
    (b : List UiPoint) : b ∈ s.inFlight ↔ b = body ∨ b ∈ s.inFlight.eraseIdx i := by
  obtain ⟨hi, rfl⟩ := List.getElem?_eq_some_iff.mp hbody
  rw [← (List.getElem_cons_eraseIdx_perm hi).mem_iff, List.mem_cons]

/-- What was in flight and is taken by the device is not lost. -/
theorem noneLost_taken (h : s.NoneLost) {i : Nat} {body : List UiPoint}
    (hbody : s.inFlight[i]? = some body) (resp : Resp) :
    (s.step (.answered i (.ok resp))).NoneLost := by
  rw [step_answered hbody]
  refine fun p hp => (h p hp).imp_right ?_
  rintro ⟨b, hb, hpb⟩
  refine ⟨b, ?_, hpb⟩
  change b ∈ s.inFlight.eraseIdx i ++ (s.taken ++ [body])
  simp only [List.mem_append, mem_inFlight_iff hbody, List.mem_singleton] at hb ⊢
  rcases hb with (hb | hb) | hb
  · exact .inr (.inr hb)
  · exact .inl hb
  · exact .inr (.inl hb)

/-- The answer to a POST. -/
theorem noneLost_answered (h : s.NoneLost) (i : Nat) (result : Except HttpError Resp) :
    (s.step (.answered i result)).NoneLost ↔ s.Keeps (.answered i result) := by
  cases hbody : s.inFlight[i]? with
  | none =>
    have hstep : s.step (.answered i result) = s := by
      rw [step, hbody]
    rw [hstep]
    refine iff_of_true h ?_
    cases result with
    | ok resp => trivial
    | error httpError =>
      intro body hsome
      rw [hbody] at hsome
      cases hsome
  | some body =>
    cases result with
    | ok resp => exact iff_of_true (noneLost_taken h hbody resp) trivial
    | error httpError =>
      rw [step_answered hbody]
      change (∀ p ∈ s.edits, p ∈ s.model.pointMods ∨
        ∃ b ∈ s.inFlight.eraseIdx i ++ s.taken, p ∈ b) ↔ _
      constructor
      · intro hall b hb p hp _
        exact hall p hp
      · intro hkeeps p hp
        rcases h p hp with hmod | ⟨b, hb, hpb⟩
        · exact .inl hmod
        · rw [List.mem_append, mem_inFlight_iff hbody, or_assoc, ← List.mem_append] at hb
          rcases hb with rfl | hb
          · exact hkeeps _ hbody p hp hpb
          · exact .inr ⟨b, hb, hpb⟩

theorem noneLost_init : init.NoneLost := fun _ h => nomatch h

theorem noneLost_step (hmods : DistinctMods s.model) (h : s.NoneLost) (e : PageEvent) :
    (s.step e).NoneLost ↔ s.Keeps e := by
  cases e with
  | tick posix => exact iff_of_true h trivial
  | fetched result => cases result <;> exact iff_of_true h trivial
  | edit points => exact noneLost_edit hmods h points
  | save points =>
    refine iff_of_true (fun p hp => .inr ?_) trivial
    change ∃ body ∈ s.inFlight ++ [s.model.pointMods] ++ s.taken, p ∈ body
    rcases h p hp with hmod | ⟨body, hbody, hp⟩
    · exact ⟨_, by simp, hmod⟩
    · refine ⟨body, ?_, hp⟩
      rcases List.mem_append.mp hbody with hbody | hbody
      · exact List.mem_append_left _ (List.mem_append_left _ hbody)
      · exact List.mem_append_right _ hbody
  | discard =>
    refine iff_of_true (fun p hp => .inr ?_) trivial
    obtain ⟨hedit, hmod⟩ := List.mem_filter.mp hp
    exact (h p hedit).resolve_left (of_decide_eq_true hmod)
  | answered i result => exact noneLost_answered h i result

end PageSystem

/-- **No edit is lost** in a run of which no step loses one: the failure of a POST does, unless
what it carried is pending again or in another body. -/
theorem noneLost_iff (es : List PageEvent) :
    Machine.InEveryState PageSystem.step PageSystem.NoneLost .init es ↔
      Machine.AtEveryStep PageSystem.step PageSystem.Keeps .init es :=
  Machine.inEveryState_iff_atEveryStep_of_inv (J := fun s : PageSystem => DistinctMods s.model)
    (fun _ e h => PageSystem.distinctMods h e) (fun _ e hmods h => PageSystem.noneLost_step hmods h e)
    distinctMods_init PageSystem.noneLost_init es

/-- A name that is edited and saved is gone when the connection drops. -/
theorem not_noneLost_failed_post :
    ¬ ∀ es, Machine.InEveryState PageSystem.step PageSystem.NoneLost .init es := by
  intro h
  let name : UiPoint := ⟨lit "description", lit "0", lit "STR", lit "barn"⟩
  have hlost : ¬ (Machine.run PageSystem.step .init
      [.edit [name], .save [name], .answered 0 (.error .networkError)]).NoneLost := by decide
  exact hlost (Machine.inEveryState_iff.mp (h _) _ List.prefix_rfl)

end ZephyrSiot
