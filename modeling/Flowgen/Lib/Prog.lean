/-
# `Flowgen.Lib.Prog` — sequential programs that call a shared object

A `Prog` is what one party does with an object it shares with others: it makes
a call, and goes on with the reply.  Between two calls anything may happen to
the object, so a program says nothing about its state; a machine that runs
several of them decides when each call takes effect, and with which reply.

`Within pre post` is what can be said about a program on its own: every call
it makes satisfies `pre`, and whatever it returns is related by `post` to the
last call it made and the reply it got.
-/
import Mathlib

namespace Flowgen.Lib

/-- A program that makes calls `r : Req`, each answered by a `Reply r`. -/
inductive Prog (Req : Type) (Reply : Req → Type) (α : Type) : Type
  | ret (a : α)
  | call (r : Req) (k : Reply r → Prog Req Reply α)

namespace Prog

variable {Req : Type} {Reply : Req → Type} {α β : Type}

def bind : Prog Req Reply α → (α → Prog Req Reply β) → Prog Req Reply β
  | .ret a, f => f a
  | .call r k, f => .call r fun x => (k x).bind f

/-- The call a program waits for. -/
def pending : Prog Req Reply α → Option Req
  | .ret _ => none
  | .call r _ => some r

/-- Answers the call a program waits for; `f` says with what, and what else comes of it. -/
def answer {γ : Type} (f : (r : Req) → Option (Reply r × γ)) :
    Prog Req Reply α → Option (Prog Req Reply α × γ)
  | .ret _ => none
  | .call r k => (f r).map fun (x, c) => (k x, c)

theorem answer_eq_some {γ : Type} {f : (r : Req) → Option (Reply r × γ)} {p p' : Prog Req Reply α}
    {c : γ} (h : p.answer f = some (p', c)) :
    ∃ r k x, p = .call r k ∧ f r = some (x, c) ∧ p' = k x := by
  cases p with
  | ret a => cases h
  | call r k =>
      obtain ⟨⟨x, c'⟩, hf, he⟩ := Option.map_eq_some_iff.mp h
      cases he
      exact ⟨r, k, x, rfl, hf, rfl⟩

/-- Every call satisfies `pre`, and what is returned right after a call is
related by `post` to the call and its reply. -/
def Within (pre : Req → Prop) (post : (r : Req) → Reply r → α → Prop) :
    Prog Req Reply α → Prop
  | .ret _ => True
  | .call r k => pre r ∧ ∀ x, (k x).Within pre post ∧ ∀ a, k x = .ret a → post r x a

variable {pre : Req → Prop} {post : (r : Req) → Reply r → β → Prop}
  {post' : (r : Req) → Reply r → α → Prop} {p : Prog Req Reply α} {f : α → Prog Req Reply β}

theorem within_ret {r : Req} {x : Reply r} {b : β} (h : post r x b) :
    (Prog.ret b : Prog Req Reply β).Within pre post ∧
      ∀ b', (Prog.ret b : Prog Req Reply β) = .ret b' → post r x b' :=
  ⟨trivial, fun _ hb => by
    cases hb
    exact h⟩

theorem within_call {r r' : Req} {x : Reply r'} {k : Reply r → Prog Req Reply β}
    (h : (Prog.call r k).Within pre post) :
    (Prog.call r k).Within pre post ∧ ∀ b, Prog.call r k = .ret b → post r' x b :=
  ⟨h, fun _ hb => by cases hb⟩

/-- Two programs one after the other. -/
theorem within_bind (hp : p.Within pre post') (hf : ∀ a, (f a).Within pre post)
    (hpost : ∀ r x a b, post' r x a → f a = .ret b → post r x b) : (p.bind f).Within pre post := by
  induction p with
  | ret a => exact hf a
  | call r k ih =>
      refine ⟨hp.1, fun x => ⟨ih x (hp.2 x).1, fun b hb => ?_⟩⟩
      replace hb : (k x).bind f = .ret b := hb
      cases hk : k x with
      | ret a =>
          rw [hk] at hb
          exact hpost r x a b ((hp.2 x).2 a hk) hb
      | call r' k' =>
          rw [hk] at hb
          cases hb

/-! ## Alone with the object -/

section Alone

variable {σ : Type} {serve : σ → (r : Req) → Reply r → σ → Prop} {Q Q' : σ → α → Prop} {s : σ}

/-- While nobody else touches the object, the program ends in `Q`, whatever the replies;
`serve` says which ones a call may get, and what it leaves. -/
def Alone (serve : σ → (r : Req) → Reply r → σ → Prop) (Q : σ → α → Prop) :
    Prog Req Reply α → σ → Prop
  | .ret a, s => Q s a
  | .call r k, s => ∀ x t, serve s r x t → (k x).Alone serve Q t

theorem Alone.mono (h : p.Alone serve Q s) (hQ : ∀ s a, Q s a → Q' s a) : p.Alone serve Q' s := by
  induction p generalizing s with
  | ret a => exact hQ s a h
  | call r k ih =>
      intro x t hserve
      exact ih x (h x t hserve)

end Alone

/-! ## Among others -/

section Among

variable {σ : Type} {rely : σ → σ → Prop} {serve : σ → (r : Req) → Reply r → σ → Prop}
  {Q : σ → α → Prop} {s t : σ}

/-- As long as what the others do to the object keeps to `rely`, the program ends in `Q`. -/
def Among (rely : σ → σ → Prop) (serve : σ → (r : Req) → Reply r → σ → Prop) (Q : σ → α → Prop) :
    Prog Req Reply α → σ → Prop
  | .ret a, s => Q s a
  | .call r k, s => ∀ s', rely s s' → ∀ x t, serve s' r x t → (k x).Among rely serve Q t

/-- The others do something. -/
theorem Among.stable (h : p.Among rely serve Q s) (hst : rely s t)
    (htrans : ∀ {a b c}, rely a b → rely b c → rely a c)
    (hQ : ∀ {a}, Q s a → Q t a) : p.Among rely serve Q t := by
  cases p with
  | ret a => exact hQ h
  | call r k =>
      intro s' hs' x u hserve
      exact h s' (htrans hst hs') x u hserve

/-- A call is answered. -/
theorem Among.served {r : Req} {k : Reply r → Prog Req Reply α} {x : Reply r}
    (h : (Prog.call r k).Among rely serve Q s) (hrefl : rely s s) (hserve : serve s r x t) :
    (k x).Among rely serve Q t :=
  h s hrefl x t hserve

/-- Two programs one after the other. -/
theorem Among.bind {Q' : σ → β → Prop} {f : α → Prog Req Reply β} (h : p.Among rely serve Q s)
    (hf : ∀ s a, Q s a → (f a).Among rely serve Q' s) : (p.bind f).Among rely serve Q' s := by
  induction p generalizing s with
  | ret a => exact hf s a h
  | call r k ih =>
      intro s' hs' x t hserve
      exact ih x (h s' hs' x t hserve)

end Among

end Prog

end Flowgen.Lib
