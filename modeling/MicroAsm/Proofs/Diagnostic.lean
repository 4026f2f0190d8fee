import Mathlib.Tactic.Common
import MicroAsm.Diagnostic

/-!
# Counting errors

How reports change the number of errors of a log. Reports never take errors back.
-/

namespace MicroAsm

/-- How many errors there are among messages. -/
def errorCount (ms : List Message) : Nat :=
  ms.countP (·.severity = .error)

@[simp] lemma errorCount_nil : errorCount [] = 0 := rfl

@[simp] lemma errorCount_error (location : Location) (text : String) :
    errorCount [⟨.error, location, text⟩] = 1 := rfl

@[simp] lemma errorCount_append (ms ms' : List Message) :
    errorCount (ms ++ ms') = errorCount ms + errorCount ms' :=
  List.countP_append

@[simp] lemma errorCount_flatMap_cons {α : Type} (f : α → List Message) (x : α) (xs : List α) :
    errorCount ((x :: xs).flatMap f) = errorCount (f x) + errorCount (xs.flatMap f) := by
  rw [List.flatMap_cons, errorCount_append]

lemma errorCount_flatMap_eq_zero {α : Type} {f : α → List Message} {xs : List α}
    (h : errorCount (xs.flatMap f) = 0) : ∀ x ∈ xs, errorCount (f x) = 0 := by
  induction xs with
  | nil => simp
  | cons x xs ih =>
    rw [errorCount_flatMap_cons, Nat.add_eq_zero_iff] at h
    exact List.forall_mem_cons.mpr ⟨h.1, ih h.2⟩

namespace Log

@[simp] lemma reportAll_nil (log : Log) : log.reportAll [] = log := rfl

lemma errors_report (log : Log) (m : Message) :
    (log.report m).errors = log.errors + errorCount [m] := by
  obtain ⟨severity, location, text⟩ := m
  cases severity <;> rfl

lemma errors_reportAll (log : Log) (ms : List Message) :
    (log.reportAll ms).errors = log.errors + errorCount ms := by
  induction ms generalizing log with
  | nil => rfl
  | cons m ms ih =>
    have hcons : log.reportAll (m :: ms) = (log.report m).reportAll ms := rfl
    have happ := errorCount_append [m] ms
    rw [List.singleton_append] at happ
    rw [hcons, ih, errors_report, happ, Nat.add_assoc]

end Log

end MicroAsm
