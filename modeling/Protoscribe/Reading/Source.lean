import Protoscribe.Value

/-!
# `Protoscribe.Reading.Source`: formats that a description is read from

A description may be written in more than one format. A `Source` says how the parts of a value
are read in one format, so that the types of a description are read the same way in all of them.
A record is read into the changes that its members make to a record with default values.
-/

set_option autoImplicit false

namespace Protoscribe

/-- A member of a record `α`: its name, and how its value changes the record. -/
structure Member (σ : Type) (m : Type → Type) (α : Type) where
  name : String
  read : σ → m (α → α)

/-- Values `σ` of a format, whose reading may fail in `m`. -/
class Source (σ : Type) (m : Type → Type) where
  /-- A text. -/
  text : σ → m String
  /-- A truth value. -/
  flag : σ → m Bool
  /-- A value that may be absent. -/
  optional {α : Type} (read : σ → m α) : σ → m (Option α)
  /-- A list. -/
  list {α : Type} (read : σ → m α) : σ → m (List α)
  /-- Entries under any texts as keys. -/
  entries {α : Type} (read : σ → m α) : σ → m (List (String × α))
  /-- Entries whose keys may also be written as numbers or truth values. -/
  ordered {α : Type} (read : σ → m α) : σ → m (List (String × α))
  /-- A record of the given title. Other members than the given ones are skipped. -/
  record {α : Type} (title : String) (members : List (Member σ m α)) : σ → m (List (α → α))
  /-- A value of any kind, read to its end. -/
  value : σ → m Value
  /-- The failure of a value that is of none of the kinds it may be. -/
  refuse {α : Type} : m α

namespace Source

variable {σ : Type} {m : Type → Type} [Monad m] [Source σ m]

/-- A member that sets a part of the record. -/
def member {α β : Type} (name : String) (read : σ → m β) (set : β → α → α) : Member σ m α :=
  ⟨name, fun source => set <$> read source⟩

/-- A record whose members change the given one. -/
def recordFrom {α : Type} (start : α) (title : String) (members : List (Member σ m α))
    (source : σ) : m α :=
  (·.foldl (fun record change => change record) start) <$> record title members source

/-- A value that is read to its end before it is known what it is. -/
def interpreted {α : Type} (read : Value → Option α) (source : σ) : m α := do
  match read (← value source) with
  | some result => pure result
  | none => refuse (σ := σ)

end Source

end Protoscribe
