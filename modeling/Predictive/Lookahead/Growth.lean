-- SUMMARY: Operations that report whether they enlarged their subject, and their repetition until they do not.

/-!
# Growth

Sets of lookaheads are computed by passes that only ever add to them. Every operation on the way
reports whether it added something, and passes are repeated until one of them adds nothing.
-/

namespace Predictive

/-- The outcome of an operation that may enlarge its subject. -/
structure Growth (α : Type) where
  value : α
  grew : Bool
deriving DecidableEq, Repr

namespace Growth

variable {α β : Type}

/-- The outcome of an operation that added nothing. -/
def still (a : α) : Growth α := ⟨a, false⟩

/-- Follow up with another operation. -/
def andThen (g : Growth α) (f : α → Growth β) : Growth β :=
  let next := f g.value
  ⟨next.value, g.grew || next.grew⟩

/-- Apply an operation for each element of a list in turn. -/
def each (f : α → β → Growth α) (a : α) (bs : List β) : Growth α :=
  bs.foldl (fun g b => g.andThen fun a => f a b) (still a)

end Growth

/-- The outcome of repeated passes, and their number. -/
structure Saturation (α : Type) where
  value : α
  passes : Nat
deriving DecidableEq, Repr

/-- Repeat a pass until it adds nothing, but at most `fuel` times. The last pass counts. -/
def saturate {α : Type} (pass : α → Growth α) : Nat → α → Saturation α
  | 0, a => ⟨a, 0⟩
  | fuel + 1, a =>
    let g := pass a
    if g.grew then
      let rest := saturate pass fuel g.value
      ⟨rest.value, rest.passes + 1⟩
    else ⟨g.value, 1⟩

end Predictive
