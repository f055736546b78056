import FlexQL.Lib.Outcome

/-!
# Calls that are watched

A watched call leaves a record of the events in it beside its result.
`Gives P x a` says that the call returns `a` and that `P` holds of every event
on the way; the rules derive it for a sequence from its parts.
-/

namespace Lib

/-- A call with the events in it. -/
structure Traced (ε α : Type) where
  events : List ε
  result : Outcome α

namespace Traced

variable {ε α β : Type}

instance : Monad (Traced ε) where
  pure a := ⟨[], .ok a⟩
  bind x f :=
    match x.result with
    | .error e => ⟨x.events, .error e⟩
    | .ok a => ⟨x.events ++ (f a).events, (f a).result⟩

/-- An event. -/
def record (e : ε) : Traced ε Unit := ⟨[e], .ok ()⟩

/-- A call in which nothing is watched. -/
def call (x : Outcome α) : Traced ε α := ⟨[], x⟩

structure Gives (P : ε → Prop) (x : Traced ε α) (a : α) : Prop where
  result : x.result = .ok a
  events : ∀ e ∈ x.events, P e

namespace Gives

variable {P : ε → Prop}

protected theorem pure (a : α) : Gives P (pure a) a := ⟨rfl, nofun⟩

protected theorem record {e : ε} (h : P e) : Gives P (record e) () :=
  ⟨rfl, fun _ he => List.mem_singleton.mp he ▸ h⟩

protected theorem call {x : Outcome α} {a : α} (h : x = .ok a) : Gives P (call x) a :=
  ⟨h, nofun⟩

protected theorem bind {x : Traced ε α} {f : α → Traced ε β} {a : α} {b : β} (hx : Gives P x a)
    (hf : Gives P (f a) b) : Gives P (x >>= f) b := by
  have hbind : x >>= f = ⟨x.events ++ (f a).events, (f a).result⟩ := by
    simp only [bind, hx.result]
  rw [hbind]
  refine ⟨hf.result, fun e he => ?_⟩
  rcases List.mem_append.mp he with he | he
  · exact hx.events e he
  · exact hf.events e he

end Gives

end Traced

end Lib
