import Mathlib.Logic.Basic

/-!
# Programs against a shared resource

A program asks a resource for one operation after the other. Others use the resource as well: before
each operation comes a turn of theirs, and what the operation answers depends on it. A run takes the
turns from a script.
-/

namespace Lib

/-- The operations of a resource, and what each answers. -/
structure Interface where
  Op : Type
  Res : Op → Type

/-- A program: a result, or an operation and how to go on from its answer. -/
inductive Prog (I : Interface) (α : Type)
  | ret (a : α)
  | op (o : I.Op) (next : I.Res o → Prog I α)

namespace Prog

variable {I : Interface} {α β : Type}

def bind : Prog I α → (α → Prog I β) → Prog I β
  | ret a, f => f a
  | op o next, f => op o fun r => (next r).bind f

instance : Monad (Prog I) where
  pure := ret
  bind := bind

/-- One operation. -/
def call (o : I.Op) : Prog I (I.Res o) :=
  op o ret

end Prog

/-- A resource with the turns of its other users. -/
structure Shared (I : Interface) where
  State : Type
  Turn : Type
  quiet : Turn
  perform : Turn → (o : I.Op) → State → I.Res o × State

namespace Shared

variable {I : Interface} (R : Shared I) {α β : Type}

/-- The run of a program under a script; where the script has ended, the others are quiet. -/
def play : Prog I α → List R.Turn → R.State → α × R.State
  | .ret a, _, s => (a, s)
  | .op o next, turns, s =>
    let answered := R.perform (turns.headD R.quiet) o s
    play (next answered.1) turns.tail answered.2

/-- Whatever the others do, the program ends as `post` says. -/
def Always (p : Prog I α) (post : α → R.State → Prop) (s : R.State) : Prop :=
  match p with
  | .ret a => post a s
  | .op o next => ∀ turn, Always (next (R.perform turn o s).1) post (R.perform turn o s).2

variable {R} {p : Prog I α} {f : α → Prog I β} {post post' : α → R.State → Prop} {s : R.State}

/-- What always holds at the end holds at the end of every run. -/
theorem Always.play (h : R.Always p post s) (turns : List R.Turn) :
    post (R.play p turns s).1 (R.play p turns s).2 := by
  induction p generalizing s turns with
  | ret a => exact h
  | op o next ih => exact ih _ (h (turns.headD R.quiet)) turns.tail

theorem Always.mono (h : R.Always p post s) (hpost : ∀ a s', post a s' → post' a s') :
    R.Always p post' s := by
  induction p generalizing s with
  | ret a => exact hpost a s h
  | op o next ih => exact fun turn => ih _ (h turn)

theorem always_ret {a : α} : R.Always (pure a) post s ↔ post a s :=
  Iff.rfl

/-- A program run after another starts from what the first one leaves. -/
theorem always_bind {post : β → R.State → Prop} :
    R.Always (p >>= f) post s ↔ R.Always p (fun a s' => R.Always (f a) post s') s := by
  induction p generalizing s with
  | ret a => exact Iff.rfl
  | op o next ih => exact forall_congr' fun turn => ih _

theorem always_call {o : I.Op} {post : I.Res o → R.State → Prop} :
    R.Always (.call o) post s ↔
      ∀ turn, post (R.perform turn o s).1 (R.perform turn o s).2 :=
  Iff.rfl

end Shared

end Lib
