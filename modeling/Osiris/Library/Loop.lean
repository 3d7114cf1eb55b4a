import Mathlib.Data.Set.Insert
import Mathlib.Tactic

/-! # Counting loops

A loop over the elements of a list in order. The body says whether the loop goes on. -/

namespace Osiris.Loop

variable {α σ : Type*}

/-- The result tells whether the loop ran to its end. -/
def forEach (body : α → σ → Bool × σ) : List α → σ → Bool × σ
  | [], s => (true, s)
  | a :: as, s =>
      match body a s with
      | (true, s) => forEach body as s
      | (false, s) => (false, s)

variable {body : α → σ → Bool × σ}

theorem forEach_cons_of_true {a : α} {as : List α} {s s' : σ} (h : body a s = (true, s')) :
    forEach body (a :: as) s = forEach body as s' := by
  simp [forEach, h]

theorem forEach_cons_of_false {a : α} {as : List α} {s s' : σ} (h : body a s = (false, s')) :
    forEach body (a :: as) s = (false, s') := by
  simp [forEach, h]

/-- A loop that keeps `I`, indexed by the elements it is done with, ends with `I` of all of them,
or where its body left it. -/
theorem forEach_spec {I : Set α → σ → Prop} {F : σ → Prop}
    (hbody : ∀ done a s, a ∉ done → I done s →
      (∃ s', body a s = (true, s') ∧ I (insert a done) s') ∨ ∃ s', body a s = (false, s') ∧ F s')
    (as : List α) {done : Set α} {s : σ} (hnodup : as.Nodup) (hdone : ∀ a ∈ as, a ∉ done)
    (hinit : I done s) :
    (∃ s', forEach body as s = (true, s') ∧ I (done ∪ {a | a ∈ as}) s') ∨
      ∃ s', forEach body as s = (false, s') ∧ F s' := by
  induction as generalizing done s with
  | nil =>
      refine Or.inl ⟨s, rfl, ?_⟩
      simpa using hinit
  | cons a as ih =>
      cases hbody done a s (hdone a List.mem_cons_self) hinit with
      | inl hok =>
          obtain ⟨s', heq, hI⟩ := hok
          rw [forEach_cons_of_true heq]
          have hrest : ∀ b ∈ as, b ∉ insert a done := by
            intro b hb hmem
            cases Set.mem_insert_iff.mp hmem with
            | inl hba => exact (List.nodup_cons.mp hnodup).1 (hba ▸ hb)
            | inr hdb => exact hdone b (List.mem_cons_of_mem a hb) hdb
          have hset : insert a done ∪ {b | b ∈ as} = done ∪ {b | b ∈ a :: as} := by
            ext b
            simp only [Set.mem_union, Set.mem_insert_iff, Set.mem_ofPred_eq, List.mem_cons]
            tauto
          rw [← hset]
          exact ih (List.nodup_cons.mp hnodup).2 hrest hI
      | inr hfail =>
          obtain ⟨s', heq, hF⟩ := hfail
          exact Or.inr ⟨s', forEach_cons_of_false heq, hF⟩

/-- The same for a loop that always runs to its end. -/
theorem foldl_spec {I : Set α → σ → Prop} {step : σ → α → σ}
    (hstep : ∀ done a s, a ∉ done → I done s → I (insert a done) (step s a))
    (as : List α) {done : Set α} {s : σ} (hnodup : as.Nodup) (hdone : ∀ a ∈ as, a ∉ done)
    (hinit : I done s) : I (done ∪ {a | a ∈ as}) (as.foldl step s) := by
  have hfold : ∀ (as : List α) (s : σ),
      forEach (fun a s => (true, step s a)) as s = (true, as.foldl step s) := by
    intro as
    induction as with
    | nil => exact fun s => rfl
    | cons a as ih => exact fun s => ih (step s a)
  have hround : ∀ done a s, a ∉ done → I done s →
      (∃ s', (true, step s a) = (true, s') ∧ I (insert a done) s') ∨
        ∃ s', (true, step s a) = (false, s') ∧ False :=
    fun done a s ha hI => Or.inl ⟨step s a, rfl, hstep done a s ha hI⟩
  have hspec := forEach_spec hround as hnodup hdone hinit
  cases hspec with
  | inl hok =>
      obtain ⟨s', heq, hI⟩ := hok
      rw [hfold, Prod.mk.injEq] at heq
      exact heq.2 ▸ hI
  | inr hfail =>
      obtain ⟨s', -, hF⟩ := hfail
      exact hF.elim

/-! ## Loops with a body that may fail -/

/-- A sequence of two steps succeeds when both do. -/
theorem bind_eq_ok {ε β γ : Type*} {x : Except ε β} {f : β → Except ε γ} {c : γ} :
    x.bind f = .ok c ↔ ∃ b, x = .ok b ∧ f b = .ok c := by
  cases x with
  | error e => simp [Except.bind]
  | ok b => simp [Except.bind]

theorem map_eq_ok {ε β γ : Type*} {x : Except ε β} {f : β → γ} {c : γ} :
    x.map f = .ok c ↔ ∃ b, x = .ok b ∧ f b = c := by
  cases x with
  | error e => simp [Except.map]
  | ok b => simp [Except.map]

/-- A result, from what can be computed of it. -/
theorem exists_of_toOption {ε β γ : Type*} {x : Except ε β} {f : β → γ} {c : γ}
    (h : x.toOption.map f = some c) : ∃ b, x = .ok b ∧ f b = c := by
  cases x with
  | error e => simp [Except.toOption] at h
  | ok b => exact ⟨b, rfl, by simpa [Except.toOption] using h⟩

/-- A body that never fails where `I` holds, and keeps `I`, makes a loop that never fails. -/
theorem foldlM_eq_some {I : σ → Prop} {body : σ → α → Option σ} {step : σ → α → σ} {s : σ}
    (hinit : I s) (hbody : ∀ s a, I s → body s a = some (step s a))
    (hkeep : ∀ s a, I s → I (step s a)) (as : List α) :
    as.foldlM body s = some (as.foldl step s) := by
  induction as generalizing s with
  | nil => rfl
  | cons a as ih =>
      rw [List.foldlM_cons, hbody s a hinit, Option.bind_eq_bind, Option.bind_some]
      exact ih (hkeep s a hinit)

/-- A body that returns where `I` holds, and keeps `I`, makes a loop that does so too. -/
theorem foldlM_ok {ε : Type*} {I : σ → Prop} {body : σ → α → Except ε σ}
    (hbody : ∀ s a, I s → ∃ s', body s a = .ok s' ∧ I s') (as : List α) {s : σ} (hinit : I s) :
    ∃ s', as.foldlM body s = .ok s' ∧ I s' := by
  induction as generalizing s with
  | nil => exact ⟨s, rfl, hinit⟩
  | cons a as ih =>
      obtain ⟨s₁, hok, hI⟩ := hbody s a hinit
      obtain ⟨s₂, hrest, hI'⟩ := ih hI
      refine ⟨s₂, ?_, hI'⟩
      rw [List.foldlM_cons, hok]
      exact hrest

/-! ## Loops that count -/

theorem foldl_range_inv {I : ℕ → σ → Prop} {step : σ → ℕ → σ} {s : σ} (n : ℕ) (hinit : I 0 s)
    (hstep : ∀ k < n, ∀ s, I k s → I (k + 1) (step s k)) : I n ((List.range n).foldl step s) := by
  induction n with
  | zero => exact hinit
  | succ n ih =>
      rw [List.range_succ, List.foldl_append]
      exact hstep n (Nat.lt_succ_self n) _ (ih fun k hk => hstep k (by omega))

theorem foldlM_range_ok {ε : Type*} {I : ℕ → σ → Prop} {body : σ → ℕ → Except ε σ} {s : σ} (n : ℕ)
    (hinit : I 0 s) (hbody : ∀ k < n, ∀ s, I k s → ∃ s', body s k = .ok s' ∧ I (k + 1) s') :
    ∃ s', (List.range n).foldlM body s = .ok s' ∧ I n s' := by
  induction n with
  | zero => exact ⟨s, rfl, hinit⟩
  | succ n ih =>
      obtain ⟨s₁, hok, hI⟩ := ih fun k hk => hbody k (by omega)
      obtain ⟨s₂, hlast, hI'⟩ := hbody n (Nat.lt_succ_self n) s₁ hI
      refine ⟨s₂, ?_, hI'⟩
      rw [List.range_succ, List.foldlM_append, hok]
      exact bind_eq_ok.mpr ⟨s₁, rfl, bind_eq_ok.mpr ⟨s₂, hlast, rfl⟩⟩

/-- The rounds of a loop that has returned. -/
theorem foldlM_range_inv {ε : Type*} {I : ℕ → σ → Prop} {body : σ → ℕ → Except ε σ} {s s' : σ}
    (n : ℕ) (hinit : I 0 s) (hbody : ∀ k < n, ∀ s s', I k s → body s k = .ok s' → I (k + 1) s')
    (hok : (List.range n).foldlM body s = .ok s') : I n s' := by
  induction n generalizing s' with
  | zero =>
      obtain rfl : s = s' := Except.ok.inj hok
      exact hinit
  | succ n ih =>
      rw [List.range_succ, List.foldlM_append] at hok
      obtain ⟨s₁, hfirst, hlast⟩ := bind_eq_ok.mp hok
      obtain ⟨s₂, hround, hend⟩ := bind_eq_ok.mp hlast
      obtain rfl : s₂ = s' := Except.ok.inj hend
      exact hbody n (Nat.lt_succ_self n) s₁ s₂ (ih (fun k hk => hbody k (by omega)) hfirst) hround

/-! ## Searches -/

theorem findM?_eq_some {α : Type} {test : α → Option Bool} {p : α → Bool} (as : List α)
    (htest : ∀ a ∈ as, test a = some (p a)) : as.findM? test = some (as.find? p) := by
  induction as with
  | nil => rfl
  | cons a as ih =>
      have hrest := ih fun b hb => htest b (List.mem_cons_of_mem a hb)
      rw [List.findM?, htest a List.mem_cons_self, Option.bind_eq_bind, Option.bind_some,
        List.find?_cons, hrest]
      cases p a <;> rfl

/-! ## Loops that write a table -/

section Table

variable {κ β : Type*} [DecidableEq κ] {key : α → κ} {value : α → β} {t : κ → Option β}

/-- A loop that writes one value for each element. -/
def writeAll (key : α → κ) (value : α → β) (as : List α) (t : κ → Option β) : κ → Option β :=
  as.foldl (fun t a => Function.update t (key a) (some (value a))) t

theorem writeAll_append (as bs : List α) :
    writeAll key value (as ++ bs) t = writeAll key value bs (writeAll key value as t) :=
  List.foldl_append

theorem writeAll_of_ne {k : κ} (as : List α) (hne : ∀ a ∈ as, key a ≠ k) :
    writeAll key value as t k = t k := by
  induction as generalizing t with
  | nil => rfl
  | cons a as ih =>
      have hrest := ih (t := Function.update t (key a) (some (value a)))
        fun b hb => hne b (List.mem_cons_of_mem a hb)
      exact hrest.trans (Function.update_of_ne (hne a List.mem_cons_self).symm _ _)

/-- A place for which all elements have the same value. -/
theorem writeAll_of_value {k : κ} {v : β} (as : List α)
    (hvalue : ∀ a ∈ as, key a = k → value a = v) (hk : ∃ a ∈ as, key a = k) :
    writeAll key value as t k = some v := by
  induction as generalizing t with
  | nil => simp at hk
  | cons b as ih =>
      have hvalue' : ∀ a ∈ as, key a = k → value a = v :=
        fun a ha => hvalue a (List.mem_cons_of_mem b ha)
      change writeAll key value as (Function.update t (key b) (some (value b))) k = _
      by_cases hlater : ∃ a ∈ as, key a = k
      · exact ih hvalue' hlater
      · -- nothing after `b` is written to the place, so that `b` is
        have hb : key b = k := by
          obtain ⟨a, ha, hkey⟩ := hk
          rcases List.mem_cons.mp ha with rfl | ha
          · exact hkey
          · exact absurd ⟨a, ha, hkey⟩ hlater
        rw [writeAll_of_ne as fun a ha hkey => hlater ⟨a, ha, hkey⟩, ← hb, Function.update_self,
          hvalue b List.mem_cons_self hb]

/-- Elements that are written to the same place with the same value do not disturb each other. -/
theorem writeAll_of_mem {a : α} (as : List α)
    (hsame : ∀ a ∈ as, ∀ b ∈ as, key a = key b → value a = value b) (ha : a ∈ as) :
    writeAll key value as t (key a) = some (value a) :=
  writeAll_of_value as (fun b hb hkey => hsame b hb a ha hkey) ⟨a, ha, rfl⟩

end Table

end Osiris.Loop
