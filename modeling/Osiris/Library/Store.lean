import Mathlib.Logic.Function.Basic
import Osiris.Library.Transition

/-! # An allocator as its clients see it

A client knows the blocks it holds by their pointers, and the contents of each. Which pointer it is
given, how much larger than asked the block is and what is in it, is up to the allocator. -/

namespace Osiris.Store

open Transition

variable {π β : Type*}

/-- The blocks that are held. -/
abbrev Contents (π β : Type*) := π → Option (List β)

inductive Request (π β : Type*) where
  | alloc (n : ℕ)
  | allocZeroed (n : ℕ)
  | resize (p : π) (n : ℕ)
  | free (p : π)
  | write (p : π) (i : ℕ) (b : β)

/-- The block at `p` may be given back. -/
def Request.Retires (p : π) : Request π β → Prop
  | .resize q _ => q = p
  | .free q => q = p
  | _ => False

/-- What is written to the block at `p`. -/
def Request.update [DecidableEq π] (p : π) (bytes : List β) : Request π β → List β
  | .write q i b => if q = p then bytes.set i b else bytes
  | _ => bytes

/-- Nothing but `NULL` and blocks that are held is named, and a write is inside its block. -/
def Request.Permitted (null : π) (σ : Contents π β) : Request π β → Prop
  | .alloc _ => True
  | .allocZeroed _ => True
  | .resize p _ => p = null ∨ (σ p).isSome
  | .free p => p = null ∨ (σ p).isSome
  | .write p i _ => ∃ bytes, σ p = some bytes ∧ i < bytes.length

variable [DecidableEq π]

/-- A request, the pointer that answers it, and the blocks that are held before and after. -/
inductive Step (null : π) (zero : β) : Contents π β → Request π β × π → Contents π β → Prop where
  | allocNull {σ n} : Step null zero σ (.alloc n, null) σ
  | alloc {σ n p bytes} (hnull : p ≠ null) (hfresh : σ p = none) (hsize : n ≤ bytes.length) :
      Step null zero σ (.alloc n, p) (Function.update σ p (some bytes))
  | zeroedNull {σ n} : Step null zero σ (.allocZeroed n, null) σ
  | zeroed {σ n p bytes} (hnull : p ≠ null) (hfresh : σ p = none) (hsize : n ≤ bytes.length)
      (hzero : bytes.take n = List.replicate n zero) :
      Step null zero σ (.allocZeroed n, p) (Function.update σ p (some bytes))
  | resizeNull {σ n p σ'} (halloc : Step null zero σ (.alloc n, p) σ') :
      Step null zero σ (.resize null n, p) σ'
  | resizeFree {σ p bytes} (hheld : σ p = some bytes) :
      Step null zero σ (.resize p 0, null) (Function.update σ p none)
  | resizeRefused {σ p n bytes} (hheld : σ p = some bytes) (hn : n ≠ 0) :
      Step null zero σ (.resize p n, null) σ
  | resizeKept {σ p n bytes} (hheld : σ p = some bytes) (hsize : n ≤ bytes.length) :
      Step null zero σ (.resize p n, p) σ
  | resizeMoved {σ p n bytes q bytes'} (hheld : σ p = some bytes) (hnull : q ≠ null)
      (hfresh : σ q = none) (hsize : n ≤ bytes'.length) (hcopied : bytes <+: bytes') :
      Step null zero σ (.resize p n, q)
        (Function.update (Function.update σ p none) q (some bytes'))
  | freeNull {σ} : Step null zero σ (.free null, null) σ
  | free {σ p bytes} (hheld : σ p = some bytes) :
      Step null zero σ (.free p, null) (Function.update σ p none)
  | write {σ p i b bytes} (hheld : σ p = some bytes) (hi : i < bytes.length) :
      Step null zero σ (.write p i b, null) (Function.update σ p (some (bytes.set i b)))

variable {null : π} {zero : β} {σ σ' : Contents π β} {p : π} {bytes : List β}

/-- A block that is not given back keeps its contents but for what is written to it. -/
theorem Step.contents {req : Request π β} {r : π} (h : Step null zero σ (req, r) σ')
    (hheld : σ p = some bytes) (hkept : ¬ req.Retires p) : σ' p = some (req.update p bytes) := by
  generalize hlabel : (req, r) = label at h
  induction h generalizing req r with
  | allocNull | zeroedNull | resizeRefused | resizeKept | freeNull =>
      cases hlabel
      exact hheld
  | alloc hnull hfresh hsize | zeroed hnull hfresh hsize hzero =>
      cases hlabel
      rw [Function.update_of_ne (fun heq => by simp [heq, hfresh] at hheld)]
      exact hheld
  | resizeNull halloc ih =>
      cases hlabel
      have halloc' := ih (show ¬ (Request.alloc _).Retires p from id) rfl
      exact halloc'
  | resizeFree hheld' | free hheld' =>
      cases hlabel
      rw [Function.update_of_ne (fun heq => hkept heq.symm)]
      exact hheld
  | resizeMoved hheld' hnull hfresh hsize hcopied =>
      cases hlabel
      rw [Function.update_of_ne (fun heq => by simp [heq, hfresh] at hheld),
        Function.update_of_ne (fun heq => hkept heq.symm)]
      exact hheld
  | @write q i b old hheld' hi =>
      cases hlabel
      by_cases heq : q = p
      · subst heq
        obtain rfl := Option.some.inj (hheld'.symm.trans hheld)
        simp only [Request.update, if_pos, Function.update_self]
      · simp only [Request.update, if_neg heq, Function.update_of_ne (Ne.symm heq)]
        exact hheld

/-- A block that is not given back holds what was last written to each of its bytes. -/
theorem Trace.contents {labels : List (Request π β × π)}
    (h : Trace (Step null zero) σ labels σ') (hheld : σ p = some bytes)
    (hkept : ∀ label ∈ labels, ¬ label.1.Retires p) :
    σ' p = some (labels.foldl (fun bytes label => label.1.update p bytes) bytes) := by
  induction h generalizing bytes with
  | nil => exact hheld
  | cons hstep _ ih =>
      obtain ⟨hfirst, hrest⟩ := List.forall_mem_cons.mp hkept
      exact ih (hstep.contents hheld hfirst) hrest

end Osiris.Store
