import ZephyrSiot.PageView
import ZephyrSiot.Verify.PageEdits
import ZephyrSiot.Verify.UiSave
import ZephyrSiot.Theory.StoreLog
import Mathlib.Algebra.Order.BigOperators.Group.List

/-!
# The settings form

What a save sends are the last edits of the settings since the save or discard before it
(`save_sends_edits`), whatever the page was shown meanwhile. There are five settings, so the request
has a bound beside the values.
-/

namespace ZephyrSiot
open CStr JsonText Frontend KeyedStore

/-! ## What the controls send -/

/-- The settings that are texts. -/
def textSettings : List Bytes := [typeDescription, typeAddress, typeNetmask, typeGateway]

/-- A point that an input of the form makes. -/
inductive FormPoint : UiPoint → Prop where
  | text {typ : Bytes} (htyp : typ ∈ textSettings) (d : Bytes) :
    FormPoint ⟨typ, lit "0", Frontend.dataTypeString, d⟩
  | staticIP (d : Bool) :
    FormPoint ⟨typeStaticIP, lit "0", dataTypeInt, if d then lit "1" else lit "0"⟩

namespace Frontend
variable {c : Control} {msg : Msg} {pts points : List UiPoint} {edit : Bool}

theorem sends_inputText_iff {key typ lbl placeholder : Bytes} :
    (inputText pts key typ lbl placeholder).Sends msg ↔
      ∃ d, msg = .editPoint [⟨typ, key, dataTypeString, d⟩] := by
  constructor
  · rintro ⟨d⟩
    exact ⟨d, rfl⟩
  · rintro ⟨d, rfl⟩
    exact .text d

theorem sends_inputCheckbox_iff {key typ lbl : Bytes} :
    (inputCheckbox pts key typ lbl).Sends msg ↔
      ∃ d : Bool, msg = .editPoint [⟨typ, key, dataTypeInt, if d then lit "1" else lit "0"⟩] := by
  constructor
  · rintro ⟨⟩
    exact ⟨_, rfl⟩
  · rintro ⟨d, rfl⟩
    exact .checkbox d

theorem mem_viewIf {condition : Bool} {elements : List Control} (h : c ∈ viewIf condition elements) :
    c ∈ elements := by
  unfold viewIf at h
  split at h
  · exact h
  · exact (List.not_mem_nil h).elim

/-- An edit is of one setting. -/
theorem Arrives.formPoint (h : Arrives (.editPoint points)) : ∃ p, points = [p] ∧ FormPoint p := by
  obtain ⟨model, c, hc, hsends⟩ := h
  have hedit {e : UiPoint} (he : FormPoint e) (heq : Msg.editPoint points = .editPoint [e]) :
      ∃ p, points = [p] ∧ FormPoint p := ⟨e, Msg.editPoint.inj heq, he⟩
  have htext {pts : List UiPoint} {typ lbl placeholder : Bytes} (htyp : typ ∈ textSettings)
      (hc : c = inputText pts (lit "0") typ lbl placeholder) : ∃ p, points = [p] ∧ FormPoint p := by
    subst hc
    obtain ⟨d, heq⟩ := sends_inputText_iff.mp hsends
    exact hedit (.text htyp d) heq
  unfold deviceContent at hc
  split at hc
  · exact (List.not_mem_nil hc).elim
  · rw [settings, List.mem_append, List.mem_append] at hc
    rcases hc with (hc | hc) | hc
    · rw [List.mem_cons, List.mem_cons, List.mem_singleton] at hc
      rcases hc with rfl | hc | rfl
      · cases hsends
      · exact htext (by decide) hc
      · obtain ⟨d, heq⟩ := sends_inputCheckbox_iff.mp hsends
        exact hedit (.staticIP d) heq
    · have hc := mem_viewIf hc
      rw [List.mem_cons, List.mem_cons, List.mem_singleton] at hc
      rcases hc with hc | hc | hc
      · exact htext (by decide) hc
      · exact htext (by decide) hc
      · exact htext (by decide) hc
    · have hc := mem_viewIf hc
      rw [List.mem_cons, List.mem_singleton] at hc
      rcases hc with rfl | rfl
      · cases hsends
      · cases hsends
  · exact (List.not_mem_nil hc).elim

end Frontend

/-! ## Edits -/

/-- The edits since the last save or discard. Of the points of one edit the first one counts. -/
def editsStep (edits : List UiPoint) : Msg → List UiPoint
  | .editPoint points => edits ++ points.reverse
  | .apiPostPoints _ | .discardEdits => []
  | _ => edits

def edits (msgs : List Msg) : List UiPoint := Machine.run editsStep [] msgs

/-- The page holds the last edit under each pair. -/
theorem find?_pointMods (msgs : List Msg) (k : Bytes × Bytes) :
    (Machine.run pageStep init.1 msgs).pointMods.find? (·.pair = k) =
      latest UiPoint.pair (edits msgs) k := by
  refine Machine.run_simulation (P := fun _ => True) (R := fun (model : Model) es =>
    model.pointMods.find? (·.pair = k) = latest UiPoint.pair es k) (fun model es msg _ h => ?_) rfl
    fun _ _ => trivial
  cases msg with
  | editPoint points =>
    change (updatePoints model.pointMods points).find? _ = _
    rw [updatePoints_eq, KeyedList.find?_puts, h, editsStep, latest_append]
    congr 1
    rw [latest, List.reverse_reverse]
  | apiRespPointList result => cases result <;> exact h
  | apiRespPointPost result => cases result <;> exact h
  | tick posix => exact h
  | apiPostPoints shown => rfl
  | discardEdits => rfl

theorem distinctMods_run (msgs : List Msg) : DistinctMods (Machine.run pageStep init.1 msgs) :=
  Machine.run_invariant (P := fun _ => True) (I := DistinctMods)
    (fun _ msg _ h => distinctMods_step h msg) distinctMods_init fun _ _ => trivial

theorem mem_pointMods_iff {msgs : List Msg} {p : UiPoint} :
    p ∈ (Machine.run pageStep init.1 msgs).pointMods ↔
      latest UiPoint.pair (edits msgs) p.pair = some p := by
  rw [← find?_pointMods]
  exact (KeyedList.find?_eq_some_iff (distinctMods_run msgs)).symm

theorem formPoint_of_mem_edits {msgs : List Msg} (h : ∀ msg ∈ msgs, Arrives msg) :
    ∀ p ∈ edits msgs, FormPoint p := by
  refine Machine.run_invariant (P := Arrives) (I := fun es : List UiPoint => ∀ p ∈ es, FormPoint p)
    (fun es msg hmsg hes => ?_) (List.forall_mem_nil _) h
  cases msg with
  | editPoint points =>
    obtain ⟨p, rfl, hp⟩ := hmsg.formPoint
    exact List.forall_mem_append.mpr ⟨hes, List.forall_mem_singleton.mpr hp⟩
  | apiPostPoints shown => exact List.forall_mem_nil _
  | discardEdits => exact List.forall_mem_nil _
  | tick | apiRespPointList | apiRespPointPost => exact hes

/-! ## The request -/

def formPairs : List (Bytes × Bytes) := (textSettings ++ [typeStaticIP]).map (·, lit "0")

/-- The characters of a point of the form beside its value. -/
def frameSize (k : Bytes × Bytes) : Nat := 31 + k.1.length + 4

section
variable {p : UiPoint} {ps : List UiPoint}

theorem FormPoint.pair_mem (h : FormPoint p) : p.pair ∈ formPairs := by
  cases h with
  | text htyp d =>
    exact List.mem_map.mpr ⟨_, List.mem_append_left _ htyp, rfl⟩
  | staticIP d => exact List.mem_map.mpr ⟨_, List.mem_append_right _ (List.mem_singleton_self _), rfl⟩

theorem FormPoint.size (h : FormPoint p) :
    31 + (escape p.typ).length + (escape p.key).length + (escape p.dataType).length +
      (escape p.data).length = frameSize p.pair + (escape p.data).length := by
  have hescape : ∀ typ ∈ textSettings, escape typ = typ := by decide
  cases h with
  | text htyp d =>
    rw [hescape _ htyp]
    rfl
  | staticIP d => rfl

/-- At most five points, each of a setting of its own. -/
theorem subperm_formPairs (hps : ∀ p ∈ ps, FormPoint p) (hnodup : (ps.map UiPoint.pair).Nodup) :
    (ps.map UiPoint.pair).Subperm formPairs :=
  hnodup.subperm fun k hk => by
    obtain ⟨p, hp, rfl⟩ := List.mem_map.mp hk
    exact (hps p hp).pair_mem

theorem length_encodeList_le (hps : ∀ p ∈ ps, FormPoint p) (hnodup : (ps.map UiPoint.pair).Nodup) :
    (encodeList ps).length ≤ 216 + (ps.map fun p => (escape p.data).length).sum := by
  rcases eq_or_ne ps [] with rfl | hne
  · decide
  · have hsizes : (ps.map fun p => 31 + (escape p.typ).length + (escape p.key).length +
        (escape p.dataType).length + (escape p.data).length).sum =
          ((ps.map UiPoint.pair).map frameSize).sum +
            (ps.map fun p => (escape p.data).length).sum := by
      rw [List.map_map, ← List.sum_map_add]
      exact congrArg List.sum (List.map_congr_left fun p hp => (hps p hp).size)
    have hframes : ((ps.map UiPoint.pair).map frameSize).sum ≤ (formPairs.map frameSize).sum := by
      obtain ⟨l, hperm, hsub⟩ := subperm_formPairs hps hnodup
      rw [← (hperm.map frameSize).sum_eq]
      exact (hsub.map frameSize).sum_le_sum fun _ _ => Nat.zero_le _
    have hall : (formPairs.map frameSize).sum = 215 := by decide
    rw [length_encodeList hne, hsizes]
    omega

end

section
variable {msgs : List Msg}

theorem formPoint_of_mem_pointMods (h : ∀ msg ∈ msgs, Arrives msg) :
    ∀ p ∈ (Machine.run pageStep init.1 msgs).pointMods, FormPoint p := fun p hp =>
  formPoint_of_mem_edits h p
    (List.mem_reverse.mp (List.mem_of_find?_eq_some (mem_pointMods_iff.mp hp)))

theorem length_pointMods_le (h : ∀ msg ∈ msgs, Arrives msg) :
    (Machine.run pageStep init.1 msgs).pointMods.length ≤ 5 := by
  have hlength := (subperm_formPairs (formPoint_of_mem_pointMods h) (distinctMods_run msgs)).length_le
  rwa [List.length_map] at hlength

end

/-- **A save sends the last edits** of the settings since the save or discard before it, each of
them once, and at most 216 characters beside their values. -/
theorem save_sends_edits {msgs : List Msg} (hmsgs : ∀ msg ∈ msgs, Arrives msg)
    (shown : List UiPoint) :
    ∃ ps, (update (.apiPostPoints shown) (Machine.run pageStep init.1 msgs)).2 = .post ps ∧
      (∀ p, p ∈ ps ↔ latest UiPoint.pair (edits msgs) p.pair = some p) ∧
      (ps.map UiPoint.pair).Nodup ∧ (∀ p ∈ ps, FormPoint p) ∧ ps.length ≤ 5 ∧
      (encodeList ps).length ≤ 216 + (ps.map fun p => (escape p.data).length).sum := by
  have hform := formPoint_of_mem_pointMods hmsgs
  exact ⟨_, rfl, fun p => mem_pointMods_iff, distinctMods_run msgs, hform, length_pointMods_le hmsgs,
    length_encodeList_le hform (distinctMods_run msgs)⟩

theorem arrives_description (d : Bytes) :
    Arrives (.editPoint [⟨typeDescription, lit "0", Frontend.dataTypeString, d⟩]) :=
  .control ⟨.success [], []⟩ (inputText [] (lit "0") typeDescription (lit "Description") (lit "desc"))
    (List.mem_cons_of_mem _ List.mem_cons_self) (.text d)

/-- A description is typed in while the page is refreshed. -/
def typedBarn : List Msg :=
  [.apiRespPointList (.ok []),
    .editPoint [⟨typeDescription, lit "0", Frontend.dataTypeString, lit "bar"⟩], .tick 3000,
    .editPoint [⟨typeDescription, lit "0", Frontend.dataTypeString, lit "barn"⟩]]

theorem arrives_typedBarn : ∀ msg ∈ typedBarn, Arrives msg := by
  simp only [typedBarn, List.forall_mem_cons]
  exact ⟨.pointList _, arrives_description _, .tick _, arrives_description _, List.forall_mem_nil _⟩

theorem save_sends_edits_barn :
    ∃ ps, (update (.apiPostPoints []) (Machine.run pageStep init.1 typedBarn)).2 = .post ps ∧
      (∀ p, p ∈ ps ↔ latest UiPoint.pair (edits typedBarn) p.pair = some p) ∧
      (ps.map UiPoint.pair).Nodup ∧ (∀ p ∈ ps, FormPoint p) ∧ ps.length ≤ 5 ∧
      (encodeList ps).length ≤ 216 + (ps.map fun p => (escape p.data).length).sum :=
  save_sends_edits arrives_typedBarn []

end ZephyrSiot
