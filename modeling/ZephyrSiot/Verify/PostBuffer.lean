import ZephyrSiot.Web

/-!
# The payload buffer

The chunk copy checks its bound and the terminator of the final callback does not. Over every
sequence of callbacks and messages the stores stay inside `v1_payload_buf` exactly when no final
callback of a POST to `/v1/points` leaves the buffer full (`storesInBounds_iff`).
-/

namespace ZephyrSiot
open CStr

/-- A store log that stays inside `sizeof(v1_payload_buf)`. -/
def StoresInBounds (stores : List (Nat × Bytes)) : Prop :=
  ∀ st ∈ stores, st.1 + st.2.length ≤ 256

/-- The final callback of a POST to `/v1/points` whose body is as long as the buffer. -/
def FillsBuffer (s : WebState) (cb : HttpCallback) : Prop :=
  cb.method = .post ∧ cb.status = .requestDataFinal ∧ cstr cb.urlBuffer = lit "/v1/points" ∧
    s.cursor + cb.data.length = 256

instance (s : WebState) (cb : HttpCallback) : Decidable (FillsBuffer s cb) :=
  inferInstanceAs (Decidable (_ ∧ _))

/-- A condition on the callbacks of a run. -/
def OnCallback (P : WebState → PointJsArray → HttpCallback → Prop) (s : WebState) : WebEvent → Prop
  | .callback ptsJs cb => P s ptsJs cb
  | .message _ => True

section
variable (J : JsonLib) (boardTarget : Bytes) {ptsJs : PointJsArray} {s : WebState}
  {cb : HttpCallback}

/-- The two stores of a callback: the chunk, unless it is refused, and the terminator. -/
theorem mem_stores_v1Handler {st : Nat × Bytes} :
    st ∈ (v1Handler J boardTarget ptsJs s cb).stores ↔
      cb.method = .post ∧ s.cursor + cb.data.length ≤ 256 ∧ (st = (s.cursor, cb.data) ∨
        cb.status = .requestDataFinal ∧ cstr cb.urlBuffer = lit "/v1/points" ∧
          st = (s.cursor + cb.data.length, [nul])) := by
  have hurl : strcmp cb.urlBuffer (lit "/v1/points") = 0 ↔ cstr cb.urlBuffer = lit "/v1/points" :=
    strcmp_eq_zero
  have hpost (s : WebState) : (v1Handler.post J ptsJs s).stores = [(s.cursor, [nul])] := rfl
  rw [v1Handler]
  split
  · next h =>
    refine iff_of_false (by simp) fun h' => ?_
    omega
  · next h =>
    cases hm : cb.method with
    | get =>
      cases cb.status <;> simp only [hm, v1Handler.final, reduceCtorEq, if_false, false_and,
        List.not_mem_nil, List.nil_append]
      split <;> simp
    | post =>
      have hlen : s.cursor + cb.data.length ≤ 256 := by simp [hm] at h; omega
      cases cb.status with
      | requestDataFinal =>
        simp only [v1Handler.final, hm, hlen, hurl, if_true, true_and]
        split
        · next hu => simp [hpost, hu, WebState.copyChunk]
        · next hu => simp [hu]
      | _ => simp [hlen]

/-- One callback stays inside the buffer unless it fills it. -/
theorem storesInBounds_v1Handler :
    StoresInBounds (v1Handler J boardTarget ptsJs s cb).stores ↔ ¬ FillsBuffer s cb := by
  simp only [StoresInBounds, mem_stores_v1Handler]
  constructor
  · rintro hin ⟨hm, hst, hu, hfull⟩
    have := hin _ ⟨hm, hfull.le, .inr ⟨hst, hu, rfl⟩⟩
    simp at this
    omega
  · rintro hnot st ⟨hm, hlen, rfl | ⟨hst, hu, rfl⟩⟩
    · exact hlen
    · have : s.cursor + cb.data.length ≠ 256 := fun hfull => hnot ⟨hm, hst, hu, hfull⟩
      simp
      omega

/-- **The payload buffer.** Over every run from the start, all stores are in bounds exactly when
no callback of the run fills the buffer. -/
theorem storesInBounds_iff (events : List WebEvent) :
    Machine.AtEveryStep (webStep J boardTarget)
        (OnCallback fun s ptsJs cb => StoresInBounds (v1Handler J boardTarget ptsJs s cb).stores)
        .init events ↔
      Machine.AtEveryStep (webStep J boardTarget)
        (OnCallback fun s _ cb => ¬ FillsBuffer s cb) .init events := by
  -- a callback checks the bound of its own chunk, so no invariant carries over between steps
  refine Machine.atEveryStep_congr (I := fun _ => True) (fun _ _ h => h) (fun s e _ => ?_)
    trivial events
  cases e with
  | callback ptsJs cb => exact storesInBounds_v1Handler J boardTarget
  | message p => exact Iff.rfl

end

/-- A POST of 256 bytes in one chunk. -/
def fullPost : HttpCallback := ⟨.post, lit "/v1/points", .requestDataFinal, .replicate 256 space⟩

/-- The terminator of the full buffer is stored at index 256. -/
theorem not_storesInBounds_fullPost :
    ¬ Machine.AtEveryStep (webStep .reference [])
      (OnCallback fun s ptsJs cb => StoresInBounds (v1Handler .reference [] ptsJs s cb).stores)
      .init [.callback .zero fullPost] := by
  rintro ⟨h, -⟩
  have hlen : fullPost.data.length = 256 := List.length_replicate
  have hmem : (256, [nul]) ∈
      (v1Handler .reference [] .zero .init fullPost).stores :=
    (mem_stores_v1Handler ..).mpr
      ⟨rfl, by rw [hlen]; rfl, .inr ⟨rfl, by decide, by rw [hlen]; rfl⟩⟩
  exact absurd (h _ hmem) (by decide)

end ZephyrSiot
