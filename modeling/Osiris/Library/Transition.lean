import Mathlib.Tactic.Common

/-! # Runs of a machine with guarded operations -/

namespace Osiris.Transition

variable {σ ο : Type*}

/-- The states reached from `start` by operations that are allowed where they are used. -/
inductive Run (step : σ → ο → σ) (Allowed : σ → ο → Prop) (start : σ) : σ → Prop where
  | start : Run step Allowed start start
  | step {s op} : Run step Allowed start s → Allowed s op → Run step Allowed start (step s op)

variable {step : σ → ο → σ} {Allowed Allowed' : σ → ο → Prop} {start s : σ}

/-- What holds at the start and is kept by every allowed operation holds in every state reached. -/
theorem Run.invariant {I : σ → Prop} (hrun : Run step Allowed start s) (hstart : I start)
    (hstep : ∀ s op, I s → Allowed s op → I (step s op)) : I s := by
  induction hrun with
  | start => exact hstart
  | step _ hop ih => exact hstep _ _ ih hop

theorem Run.weaken (hrun : Run step Allowed start s)
    (h : ∀ s op, Allowed s op → Allowed' s op) : Run step Allowed' start s := by
  induction hrun with
  | start => exact .start
  | step _ hop ih => exact .step ih (h _ _ hop)

/-! ## Runs step by step -/

section Steps

variable (next : σ → ο → σ → Prop)

/-- Every step that is taken meets `P`. -/
def Along (P : σ → ο → Prop) : σ → List ο → Prop
  | _, [] => True
  | s, op :: ops => ∀ s', next s op s' → P s op ∧ Along P s' ops

/-- Every state that is reached meets `I`. -/
def Throughout (I : σ → Prop) : σ → List ο → Prop
  | s, [] => I s
  | s, op :: ops => I s ∧ ∀ s', next s op s' → Throughout I s' ops

variable {next}

/-- An invariant can be used at every step. -/
theorem Along.and_invariant {I : σ → Prop} {P : σ → ο → Prop}
    (hstep : ∀ s op s', I s → P s op → next s op s' → I s') {s : σ} {ops : List ο} (hs : I s)
    (h : Along next P s ops) : Along next (fun s op => P s op ∧ I s) s ops := by
  induction ops generalizing s with
  | nil => trivial
  | cons op ops ih =>
      intro s' hnext
      obtain ⟨hop, hrest⟩ := h s' hnext
      exact ⟨⟨hop, hs⟩, ih (hstep s op s' hs hop hnext) hrest⟩

/-- When `P` tells of each step whether it keeps `I`, it tells so of a run. -/
theorem throughout_iff_along {I : σ → Prop} {Valid P : σ → ο → Prop}
    (hstep : ∀ s op s', I s → Valid s op → next s op s' → (I s' ↔ P s op)) {s : σ} {ops : List ο}
    (hs : I s) (hvalid : Along next Valid s ops) :
    Throughout next I s ops ↔ Along next P s ops := by
  induction ops generalizing s with
  | nil => exact iff_of_true hs trivial
  | cons op ops ih =>
      constructor
      · rintro ⟨-, hrest⟩ s' hnext
        obtain ⟨hop, hvalid'⟩ := hvalid s' hnext
        have hs' : I s' := by
          have hthrough := hrest s' hnext
          cases ops with
          | nil => exact hthrough
          | cons op' ops' => exact hthrough.1
        exact ⟨(hstep s op s' hs hop hnext).mp hs', (ih hs' hvalid').mp (hrest s' hnext)⟩
      · intro halong
        refine ⟨hs, fun s' hnext => ?_⟩
        obtain ⟨hop, hvalid'⟩ := hvalid s' hnext
        obtain ⟨hp, hrest⟩ := halong s' hnext
        exact (ih ((hstep s op s' hs hop hnext).mpr hp) hvalid').mpr hrest

/-- Two conditions on steps say the same of a run when they do so of each step where `I` holds, and
meeting them keeps `I`. -/
theorem along_congr {I : σ → Prop} {P Q : σ → ο → Prop}
    (hiff : ∀ s op s', I s → next s op s' → (P s op ↔ Q s op))
    (hkeep : ∀ s op s', I s → next s op s' → Q s op → I s') {s : σ} {ops : List ο} (hs : I s) :
    Along next P s ops ↔ Along next Q s ops := by
  induction ops generalizing s with
  | nil => exact Iff.rfl
  | cons op ops ih =>
      constructor
      · intro halong s' hnext
        obtain ⟨hp, hrest⟩ := halong s' hnext
        have hq := (hiff s op s' hs hnext).mp hp
        exact ⟨hq, (ih (hkeep s op s' hs hnext hq)).mp hrest⟩
      · intro halong s' hnext
        obtain ⟨hq, hrest⟩ := halong s' hnext
        exact ⟨(hiff s op s' hs hnext).mpr hq, (ih (hkeep s op s' hs hnext hq)).mpr hrest⟩

end Steps

/-! ## Labelled steps -/

/-- The steps from one state to another, each with its label. -/
inductive Trace (next : σ → ο → σ → Prop) : σ → List ο → σ → Prop where
  | nil {a} : Trace next a [] a
  | cons {a b c label labels} : next a label b → Trace next b labels c →
      Trace next a (label :: labels) c

section Labelled

variable {τ ο' : Type*} {next : σ → ο → σ → Prop} {next' : τ → ο' → τ → Prop}

/-- What every step keeps, a trace keeps. -/
theorem Trace.invariant {I : σ → Prop} (hkeep : ∀ s label s', I s → next s label s' → I s')
    {s s' : σ} {labels : List ο} (h : Trace next s labels s') (hs : I s) : I s' := by
  induction h with
  | nil => exact hs
  | cons hstep _ ih => exact ih (hkeep _ _ _ hs hstep)

/-- Forward simulation: when every step has a counterpart, every trace has. -/
theorem Trace.simulate {R : σ → τ → Prop} {f : ο → ο'}
    (hsim : ∀ s t label s', R s t → next s label s' → ∃ t', next' t (f label) t' ∧ R s' t')
    {s s' : σ} {t : τ} {labels : List ο} (h : Trace next s labels s') (hR : R s t) :
    ∃ t', Trace next' t (labels.map f) t' ∧ R s' t' := by
  induction h generalizing t with
  | nil => exact ⟨t, .nil, hR⟩
  | cons hstep _ ih =>
      obtain ⟨t', hstep', hR'⟩ := hsim _ _ _ _ hR hstep
      obtain ⟨t'', hrest, hR''⟩ := ih hR'
      exact ⟨t'', .cons hstep' hrest, hR''⟩

end Labelled

end Osiris.Transition
