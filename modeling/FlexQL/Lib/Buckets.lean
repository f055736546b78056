import Mathlib.Data.List.Basic

/-!
# Grouping values under their keys

A hash index is a list of buckets, one for each key, and the values of a key
are in the order they were pushed. Keys are compared by a Boolean test that
need not be reflexive: a key that is not even tied with itself gets a bucket
of its own each time, and no probe finds it. All that probing needs is that
the test is symmetric and transitive.
-/

namespace Lib.Buckets

/-- The test is symmetric and transitive. -/
structure PartialEquiv {α : Type} (eq : α → α → Bool) : Prop where
  symm : ∀ a b, eq a b = true → eq b a = true
  trans : ∀ a b c, eq a b = true → eq b c = true → eq a c = true

variable {α β : Type} (eq : α → α → Bool)

/-- The value goes behind the others of its key. -/
def push (key : α) (b : β) : List (α × List β) → List (α × List β)
  | [] => [(key, [b])]
  | e :: es => if eq key e.1 then (e.1, e.2 ++ [b]) :: es else e :: push key b es

/-- The values of a key. -/
def probe (key : α) (es : List (α × List β)) : List β :=
  match es.find? fun e => eq key e.1 with
  | some e => e.2
  | none => []

variable {eq} {key key' : α} {b : β} {es : List (α × List β)}

theorem probe_cons (k : α) (bs : List β) :
    probe eq key ((k, bs) :: es) = if eq key k then bs else probe eq key es := by
  rw [probe, List.find?_cons]
  cases h : eq key k with
  | true => rfl
  | false => rfl

/-- A probe after a push finds one value more, if the keys are tied. -/
theorem probe_push (heq : PartialEquiv eq) :
    probe eq key (push eq key' b es) = probe eq key es ++ if eq key key' then [b] else [] := by
  induction es with
  | nil => rw [push, probe_cons]; rfl
  | cons e es ih =>
      obtain ⟨k, bs⟩ := e
      rw [push, probe_cons]
      split
      · next hpush =>
          -- the bucket of the pushed key is the one in front
          rw [probe_cons]
          by_cases h : eq key k = true
          · rw [if_pos h, if_pos h, if_pos (heq.trans _ _ _ h (heq.symm _ _ hpush))]
          · rw [if_neg h, if_neg h, if_neg fun hk => h (heq.trans _ _ _ hk hpush),
              List.append_nil]
      · next hpush =>
          rw [probe_cons]
          by_cases h : eq key k = true
          · rw [if_pos h, if_pos h,
              if_neg fun hk => hpush (heq.trans _ _ _ (heq.symm _ _ hk) h), List.append_nil]
          · rw [if_neg h, if_neg h, ih]

/-- Probing the index over a list is filtering the list. -/
theorem probe_foldl (heq : PartialEquiv eq) (l : List (α × β)) :
    probe eq key (l.foldl (fun es e => push eq e.1 e.2 es) es) =
      probe eq key es ++ (l.filter fun e => eq key e.1).map (·.2) := by
  induction l generalizing es with
  | nil => rw [List.foldl_nil, List.filter_nil, List.map_nil, List.append_nil]
  | cons e l ih =>
      rw [List.foldl_cons, ih, probe_push heq, List.append_assoc, List.filter_cons]
      split
      · rw [List.map_cons, List.singleton_append]
      · rw [List.nil_append]

end Lib.Buckets
