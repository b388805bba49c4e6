import LiteServer.Ensemble.Assemble

/-!
# What a step writes

The outputs of a step come from its worker or from a nested call. A worker's answer is JSON, raw
JSON or binary data, never an envelope. A nested call's answer can be an envelope; a step with
declared outputs refuses it, and a step without passes it on as it is.

## Main results

* `executeStep_eq_ok` — where the outputs of a step come from
* `materializeStepOutputs_notEnvelope` — when they have no envelope among them
-/

namespace LiteServer

namespace Ensemble

open Checks

variable {E : Externals}

variable {v : EnsembleValue} {name : String}

theorem parseStepOutput_notEnvelope {single : SingleResponse}
    (h : parseStepOutput E name single = .ok v) : v.isEnvelope = false := by
  rw [parseStepOutput] at h
  split at h
  · exact Except.ok.inj h ▸ rfl
  · split at h
    · exact Except.ok.inj h ▸ rfl
    · split at h
      · exact Except.ok.inj h ▸ rfl
      · exact absurd h (by simp)

variable {responseMeta : Option StepResponseMeta}

theorem unaryResponseToValue_notEnvelope {response : Response} {raw : Bool}
    (h : unaryResponseToValue E name response raw = .ok (v, responseMeta)) :
    v.isEnvelope = false := by
  rw [unaryResponseToValue.eq_def] at h
  split at h
  · dsimp only at h
    split at h
    · split at h
      · exact (Prod.mk.inj (Except.ok.inj h)).1 ▸ rfl
      · obtain ⟨v', hparse, h⟩ := bind_eq_ok.mp h
        obtain ⟨rfl, -⟩ := Prod.mk.inj (pure_eq_ok.mp h)
        exact parseStepOutput_notEnvelope hparse
    · split at h <;> exact absurd h (by simp)
    · exact absurd h (by simp)
  · exact absurd h (by simp)

variable {step : EnsembleStep}

theorem attemptLoop_notEnvelope {version : String} {raw : Bool} {attempts : ℕ → StepAttempt}
    {k left : ℕ} (h : attemptLoop E step version raw attempts k left = .ok (v, responseMeta)) :
    v.isEnvelope = false := by
  induction left generalizing k with
  | zero =>
    rw [attemptLoop] at h
    split at h
    · exact absurd h (by simp)
    · exact absurd h (by simp)
    · split at h
      · rename_i hanswer
        exact unaryResponseToValue_notEnvelope (Except.ok.inj h ▸ hanswer)
      · exact absurd h (by simp)
    · exact absurd h (by simp)
    · exact absurd h (by simp)
  | succ left ih =>
    -- Every error either ends the loop or goes on with one retry less.
    have hretry : ∀ e : AppError, (if isRetryableError e && !(attempts k).budgetShort then
          attemptLoop E step version raw attempts (k + 1) left else .error e) =
        Except.ok (v, responseMeta) → v.isEnvelope = false := by
      intro e he
      split at he
      · exact ih he
      · exact absurd he (by simp)
    rw [attemptLoop] at h
    split at h
    · exact absurd h (by simp)
    · exact absurd h (by simp)
    · split at h
      · rename_i hanswer
        exact unaryResponseToValue_notEnvelope (Except.ok.inj h ▸ hanswer)
      · exact hretry _ h
    · exact hretry _ h
    · exact hretry _ h

variable {results : StepResults}

/-- **The outputs of a step.** They are made from the value of its worker, or from the value of a
nested call it made. -/
theorem executeStep_eq_ok {plan : EnsemblePlan} {idx : ℕ} {context : Context}
    {opts : EnsembleExecOpts} {depth : ℕ} {ancestors : List (String × String)} {env : StepEnv}
    (h : executeStep E plan idx step context opts depth ancestors env = .ok results) :
    ∃ raw responseMeta, materializeStepOutputs E step raw responseMeta = .ok results ∧
      (raw.isEnvelope = false ∨ ∃ call,
        prepareStep E plan idx step context opts depth ancestors env = .ok (.nested call) ∧
        env.nested = some (.ok (.unary raw responseMeta))) := by
  obtain ⟨dispatch, hprepare, h⟩ := bind_eq_ok.mp h
  cases dispatch with
  | worker version =>
    obtain ⟨⟨v, responseMeta⟩, hloop, h⟩ := bind_eq_ok.mp h
    exact ⟨v, responseMeta, h, .inl (attemptLoop_notEnvelope hloop)⟩
  | nested call =>
    obtain ⟨answer, hanswer, h⟩ := bind_eq_ok.mp h
    obtain ⟨outcome, houtcome, h⟩ := bind_eq_ok.mp h
    rw [okOr_eq_ok] at hanswer
    cases outcome with
    | unary v responseMeta =>
      exact ⟨v, responseMeta, h, .inr ⟨call, hprepare, by rw [hanswer, houtcome]⟩⟩
    | stream _ _ _ => exact absurd h (by simp)

variable {raw : EnsembleValue}

/-- A declared output is written under its own key, and is no envelope. -/
theorem materializeOutput_eq_ok {decl : String × StepOutputDecl} {out : String × EnsembleValue}
    (h : materializeOutput E step raw decl = .ok out) :
    out.1 = step.name ++ "." ++ decl.1 ∧ out.2.isEnvelope = false := by
  rw [materializeOutput.eq_def] at h
  dsimp only at h
  split at h
  · simp only [bind_eq_ok, pure_eq_ok] at h
    obtain ⟨_, -, rfl⟩ := h
    exact ⟨rfl, rfl⟩
  · exact absurd h (by simp)
  · simp only [bind_eq_ok, pure_eq_ok] at h
    obtain ⟨_, -, _, -, _, -, rfl⟩ := h
    exact ⟨rfl, rfl⟩
  · simp only [bind_eq_ok, pure_eq_ok] at h
    obtain ⟨_, -, rfl⟩ := h
    exact ⟨rfl, rfl⟩
  · exact absurd h (by simp)
  · exact absurd h (by simp)

/-- **No envelope is written** by a step with declared outputs, or for a value that is none. -/
theorem materializeStepOutputs_notEnvelope
    (h : materializeStepOutputs E step raw responseMeta = .ok results)
    (hraw : step.outputsDecl = none → raw.isEnvelope = false) :
    ∀ e ∈ results.values, e.2.isEnvelope = false := by
  rw [materializeStepOutputs] at h
  split at h
  · rename_i hnone
    obtain rfl := Except.ok.inj h
    simpa using hraw hnone
  · simp only [bind_eq_ok, pure_eq_ok] at h
    obtain ⟨_, -, values, hvalues, rfl⟩ := h
    intro e he
    obtain ⟨_, -, hout⟩ := mem_of_mapM hvalues he
    exact (materializeOutput_eq_ok hout).2

end Ensemble

end LiteServer
