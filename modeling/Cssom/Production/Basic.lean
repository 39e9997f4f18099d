import Cssom.Diagnostic.Basic
import Cssom.Entity
import Cssom.Input

/-!
# Productions

A production says how one part of a style sheet is read. It is a tree of the few things that
reading may consist of: to look at what is under the cursor, to move on, to report something, and to
run another production in a frame of the syntax tree. A production cannot do anything else. It
never moves back, and it does not learn whether a syntax tree is kept; so what holds of these few
steps holds of whatever is put together from them.
-/

namespace Cssom

/-- How to read something, as a tree of steps. -/
inductive Production : Type → Type 1 where
  /-- Nothing more to do. -/
  | done {α : Type} (result : α) : Production α
  /-- Look at what is under the cursor. -/
  | look {α : Type} (next : View → Production α) : Production α
  /-- Move to the next significant token. -/
  | advance {α : Type} (next : Production α) : Production α
  /-- Report that something is wrong. -/
  | report {α : Type} (diagnostic : Diagnostic) (next : Production α) : Production α
  /-- Run a production in a frame of its own, which keeps the entity of its result. -/
  | enclosed {α β : Type} (body : Production β) (entity : β → Option Entity)
      (next : β → Production α) : Production α

namespace Production

/-- One production, then another that depends on its result. -/
def bind {α β : Type} : Production α → (α → Production β) → Production β
  | done result, f => f result
  | look next, f => look fun view => (next view).bind f
  | advance next, f => advance (next.bind f)
  | report diagnostic next, f => report diagnostic (next.bind f)
  | enclosed body entity next, f => enclosed body entity fun result => (next result).bind f

instance : Monad Production where
  pure := done
  bind := bind

/-- A production that only gives what was read adds nothing. -/
theorem bind_done {α : Type} (p : Production α) : p.bind done = p := by
  induction p with
  | done result => rfl
  | look next ih => exact congrArg look (funext ih)
  | advance next ih => exact congrArg advance ih
  | report diagnostic next ih => exact congrArg (report diagnostic) ih
  | enclosed body entity next _ ih => exact congrArg (enclosed body entity) (funext ih)

/-- It makes no difference how steps in a row are put in parentheses. -/
theorem bind_assoc {α β γ : Type} (p : Production α) (f : α → Production β)
    (g : β → Production γ) : (p.bind f).bind g = p.bind fun a => (f a).bind g := by
  induction p with
  | done result => rfl
  | look next ih => exact congrArg look (funext fun view => ih view f)
  | advance next ih => exact congrArg advance (ih f)
  | report diagnostic next ih => exact congrArg (report diagnostic) (ih f)
  | enclosed body entity next _ ih => exact congrArg (enclosed body entity) (funext fun b => ih b f)

instance : LawfulMonad Production :=
  LawfulMonad.mk' Production (fun p => bind_done p) (fun _ _ => rfl)
    (fun p f g => bind_assoc p f g)

/-! ### Steps by name -/

/-- What is under the cursor. -/
def view : Production View :=
  look done

/-- The kind of the token under the cursor. -/
def kind : Production Token.Kind :=
  look fun view => done view.kind

/-- Moves on, and gives the token that was under the cursor. -/
def take : Production Token :=
  look fun view => advance (done view.token)

/-- Moves on. -/
def skip : Production Unit :=
  advance (done ())

/-- Reports a cause at a place. -/
def complainAt (cause : Cause) (position : Position) : Production Unit :=
  report ⟨cause, position⟩ (done ())

/-- Reports a cause at the token under the cursor. -/
def complain (cause : Cause) : Production Unit :=
  look fun view => complainAt cause view.position

/-- Reports a cause that quotes the token under the cursor, at that token. -/
def complainOf (cause : String → Cause) : Production Unit :=
  look fun view => complainAt (cause view.token.text) view.position

/-- Moves on if the token under the cursor is of a kind. -/
def skipIf (kind : Token.Kind) : Production Unit :=
  look fun view => if view.kind = kind then skip else done ()

/-- Runs a production, that may fail, in a frame of its own. -/
def inFrame {α : Type} (entity : α → Entity) (body : Production (Option α)) :
    Production (Option α) :=
  enclosed body (·.map entity) done

/-- Guards against a round of a loop that read nothing: if the cursor stands where it stood before
the round, that token is reported and passed over. Two tokens stand at the same place when they
start at the same byte. -/
def passIfStuck (before : UInt32) : Production Unit :=
  look fun view =>
    if !view.atEnd && view.offset == before then do
      complainOf .invalidToken
      skip
    else done ()

end Production

end Cssom
