import Mathlib

/-!
# Programs as trees of atomic steps

A `Prog` is a program that shares its state with others: a tree whose nodes
are atomic steps.  A step looks at the state, changes it, waits for it to
become different, or fails, and the state before the step chooses the rest
of the program.  A step may show an event to the outside.

The module gives two ways to reason about a program.

* `exec` runs it alone, and `Spec` says what then comes out; the rules
  `Spec.bind`, `Spec.mono` and `Spec.act` follow the program's text.
* `Typed` says that the events come in an order that an automaton allows,
  whatever happens to the state between two steps; its rules are
  `Typed.bind` and `Typed.act`.
-/

namespace Xv6.Lib

/-- What an atomic step makes of the state. -/
inductive Out (ε σ : Type) where
  | ok (s : σ)
  | block
  | panic (e : ε)

/-- Programs with states `σ`, failures `ε`, events `ι` and results `α`.
`spin` is a loop that the model does not follow any further. -/
inductive Prog (σ ε ι α : Type) where
  | ret (a : α)
  | step (event : σ → Option ι) (effect : σ → Out ε σ) (next : σ → Prog σ ε ι α)
  | spin

variable {σ ε ι α β : Type}

namespace Prog

/-- Run one program after the other. -/
def bind (p : Prog σ ε ι α) (f : α → Prog σ ε ι β) : Prog σ ε ι β :=
  match p with
  | .ret a => f a
  | .step event effect next => .step event effect fun s => (next s).bind f
  | .spin => .spin

instance : Monad (Prog σ ε ι) where
  pure := .ret
  bind := bind

theorem bind_assoc {γ : Type} (p : Prog σ ε ι α) (f : α → Prog σ ε ι β)
    (g : β → Prog σ ε ι γ) : (p >>= f) >>= g = p >>= fun a => f a >>= g := by
  show (p.bind f).bind g = p.bind fun a => (f a).bind g
  induction p with
  | ret | spin => rfl
  | step event effect next ih => simp only [bind, ih]

/-- What one atomic action does: it has a result, an event and a next
state, or it waits, or it fails. -/
inductive Act (σ ε ι α : Type) where
  | done (a : α) (s : σ) (event : Option ι)
  | block
  | panic (e : ε)

namespace Act

def event : Act σ ε ι α → Option ι
  | .done _ _ event => event
  | .block | .panic _ => none

def out : Act σ ε ι α → Out ε σ
  | .done _ s _ => .ok s
  | .block => .block
  | .panic e => .panic e

def next : Act σ ε ι α → Prog σ ε ι α
  | .done a _ _ => .ret a
  | .block | .panic _ => .spin

end Act

/-- The program of one atomic action. -/
def act (f : σ → Act σ ε ι α) : Prog σ ε ι α :=
  .step (fun s => (f s).event) (fun s => (f s).out) (fun s => (f s).next)

/-- Look at the state. -/
def read (f : σ → α) : Prog σ ε ι α := act fun s => .done (f s) s none

/-- Change the state. -/
def modify (f : σ → σ) : Prog σ ε ι Unit := act fun s => .done () (f s) none

/-- Show an event. -/
def emit (i : ι) : Prog σ ε ι Unit := act fun s => .done () s (some i)

/-- Fail. -/
def fail (e : ε) : Prog σ ε ι α := act fun _ => .panic e

/-! ## Running a program alone -/

/-- How a program that runs alone ends.  It is stuck when it waits for a
change that nobody makes, or loops beyond what the model follows. -/
inductive Outcome (σ ε α : Type) where
  | done (a : α) (s : σ)
  | stuck
  | panic (e : ε)

/-- The events of a program that runs alone, and how it ends. -/
def exec : Prog σ ε ι α → σ → List ι × Outcome σ ε α
  | .ret a, s => ([], .done a s)
  | .step event effect next, s =>
    match effect s with
    | .ok s' => ((event s).toList ++ ((next s).exec s').1, ((next s).exec s').2)
    | .block => ([], .stuck)
    | .panic e => ([], .panic e)
  | .spin, _ => ([], .stuck)

theorem exec_bind (p : Prog σ ε ι α) (f : α → Prog σ ε ι β) (s : σ) : (p >>= f).exec s =
      match (p.exec s).2 with
      | .done a s' => ((p.exec s).1 ++ ((f a).exec s').1, ((f a).exec s').2)
      | .stuck => ((p.exec s).1, .stuck)
      | .panic e => ((p.exec s).1, .panic e) := by
  show (p.bind f).exec s = _
  induction p generalizing s with
  | ret | spin => simp [bind, exec]
  | step event effect next ih =>
    simp only [bind, exec]
    cases effect s with
    | block | panic => rfl
    | ok s' =>
      simp only [ih]
      cases ((next s).exec s').2 with
      | done a s'' => simp
      | stuck | panic => rfl

end Prog

open Prog

/-! ## What comes out of a program that runs alone -/

/-- The program, run alone from `s`, ends with a result, a state and events
that satisfy `Q`.  If it does not end properly, then its events satisfy `I`
and its failure is not a bad one. -/
structure Spec (I : List ι → Prop) (bad : ε → Prop) (p : Prog σ ε ι α) (s : σ)
    (Q : α → σ → List ι → Prop) : Prop where
  of_done {a : α} {s' : σ} : (p.exec s).2 = .done a s' → Q a s' (p.exec s).1
  of_stuck : (p.exec s).2 = .stuck → I (p.exec s).1
  of_panic {e : ε} : (p.exec s).2 = .panic e → I (p.exec s).1 ∧ ¬ bad e

namespace Spec

variable {I : List ι → Prop} {bad : ε → Prop} {p : Prog σ ε ι α} {f : α → Prog σ ε ι β}
  {s : σ} {P Q : α → σ → List ι → Prop} {R : β → σ → List ι → Prop}

/-- The specification of a program whose end is known. -/
theorem of_exec {u : List ι} {o : Outcome σ ε α} (hexec : p.exec s = (u, o)) (h : match o with
      | .done a s' => Q a s' u
      | .stuck => I u
      | .panic e => I u ∧ ¬ bad e) : Spec I bad p s Q := by
  constructor
  · intro a s' heq
    rw [hexec] at heq ⊢
    cases heq
    exact h
  · intro heq
    rw [hexec] at heq ⊢
    cases heq
    exact h
  · intro e heq
    rw [hexec] at heq ⊢
    cases heq
    exact h

theorem pure {a : α} (h : Q a s []) : Spec I bad (Pure.pure a) s Q :=
  of_exec (o := .done a s) rfl h

theorem spin (h : I []) : Spec I bad (.spin : Prog σ ε ι α) s Q := of_exec (o := .stuck) rfl h

theorem mono (h : Spec I bad p s P) (himp : ∀ a s' u, P a s' u → Q a s' u) : Spec I bad p s Q where
  of_done heq := himp _ _ _ (h.of_done heq)
  of_stuck heq := h.of_stuck heq
  of_panic heq := h.of_panic heq

/-- Two specifications of one program hold together. -/
theorem and (h : Spec I bad p s P) (h' : Spec I bad p s Q) :
    Spec I bad p s fun a s' u => P a s' u ∧ Q a s' u where
  of_done heq := ⟨h.of_done heq, h'.of_done heq⟩
  of_stuck heq := h.of_stuck heq
  of_panic heq := h.of_panic heq

/-- A program that may neither wait nor fail ends. -/
theorem exists_done (h : Spec (fun _ => False) bad p s Q) :
    ∃ a s', (p.exec s).2 = .done a s' ∧ Q a s' (p.exec s).1 := by
  cases hp : (p.exec s).2 with
  | done a s' => exact ⟨a, s', rfl, h.of_done hp⟩
  | stuck => exact (h.of_stuck hp).elim
  | panic e => exact (h.of_panic hp).1.elim

/-- The rule for a sequence of two programs. -/
theorem bind (h : Spec I bad p s P) (hf : ∀ a s' u, P a s' u →
      Spec (fun v => I (u ++ v)) bad (f a) s' fun b s'' v => R b s'' (u ++ v)) :
    Spec I bad (p >>= f) s R := by
  have hexec := exec_bind p f s
  cases hp : (p.exec s).2 with
  | done a s' =>
    have hnext := hf a s' _ (h.of_done hp)
    rw [hp] at hexec
    constructor
    · intro b s'' heq
      rw [hexec] at heq ⊢
      exact hnext.of_done heq
    · intro heq
      rw [hexec] at heq ⊢
      exact hnext.of_stuck heq
    · intro e heq
      rw [hexec] at heq ⊢
      exact hnext.of_panic heq
  | stuck =>
    rw [hp] at hexec
    exact of_exec hexec (h.of_stuck hp)
  | panic e =>
    rw [hp] at hexec
    exact of_exec hexec (h.of_panic hp)

/-- The first steps of a program can be taken together. -/
theorem bind_assoc {γ : Type} {g : β → Prog σ ε ι γ} {R : γ → σ → List ι → Prop}
    (h : Spec I bad ((p >>= f) >>= g) s R) : Spec I bad (p >>= fun a => f a >>= g) s R := by
  rwa [← Prog.bind_assoc]

/-- The rule for one atomic action. -/
theorem act {g : σ → Act σ ε ι α} (h : match g s with
      | .done a s' event => Q a s' event.toList
      | .block => I []
      | .panic e => I [] ∧ ¬ bad e) : Spec I bad (Prog.act g) s Q := by
  cases hg : g s with
  | done a s' event =>
    rw [hg] at h
    refine of_exec (u := event.toList) (o := .done a s') ?_ h
    simp [Prog.act, exec, hg, Act.event, Act.out, Act.next]
  | block =>
    rw [hg] at h
    exact of_exec (u := []) (o := .stuck) (by simp [Prog.act, exec, hg, Act.out]) h
  | panic e =>
    rw [hg] at h
    exact of_exec (u := []) (o := .panic e) (by simp [Prog.act, exec, hg, Act.out]) h

theorem read {g : σ → α} (h : Q (g s) s []) : Spec I bad (Prog.read g) s Q := act h

theorem modify {g : σ → σ} {Q : Unit → σ → List ι → Prop} (h : Q () (g s) []) :
    Spec I bad (Prog.modify g) s Q := act h

/-- The rule for a program that begins with a read. -/
theorem read_bind {g : σ → α} {a : α} (ha : g s = a) (h : Spec I bad (f a) s R) :
    Spec I bad (Prog.read g >>= f) s R := by
  refine .bind (P := fun b s' u => b = a ∧ s' = s ∧ u = []) (read ⟨ha, rfl, rfl⟩) ?_
  rintro _ _ _ ⟨rfl, rfl, rfl⟩
  exact h

/-- The rule for a program that begins with a change of the state. -/
theorem modify_bind {g : σ → σ} {t : σ} {f : Unit → Prog σ ε ι β} (ht : g s = t)
    (h : Spec I bad (f ()) t R) : Spec I bad (Prog.modify g >>= f) s R := by
  refine .bind (P := fun _ s' u => s' = t ∧ u = []) (modify ⟨ht, rfl⟩) ?_
  rintro _ _ _ ⟨rfl, rfl⟩
  exact h

theorem emit {i : ι} {Q : Unit → σ → List ι → Prop} (h : Q () s [i]) :
    Spec I bad (Prog.emit i) s Q := act h

theorem fail {e : ε} (h : I [] ∧ ¬ bad e) : Spec I bad (Prog.fail e : Prog σ ε ι α) s Q :=
  act h

end Spec

/-! ## The order of events -/

/-- What an automaton with states `δ` says to an event: go on in another
state, or the event must not happen, or nothing is claimed after it. -/
inductive Verdict (δ : Type) where
  | go (d : δ)
  | forbid
  | ignore

/-- From the automaton state `d` on, no step of the program shows a
forbidden event, and a result is returned in an automaton state that
satisfies `Q`.  The state may change in any way between two steps. -/
def Prog.Typed {δ : Type} (rule : δ → ι → Verdict δ) (Q : α → δ → Prop) :
    δ → Prog σ ε ι α → Prop
  | d, .ret a => Q a d
  | d, .step event _ next => ∀ s,
    match event s with
    | none => (next s).Typed rule Q d
    | some i =>
      match rule d i with
      | .go d' => (next s).Typed rule Q d'
      | .forbid => False
      | .ignore => True
  | _, .spin => True

namespace Prog.Typed

variable {δ : Type} {rule : δ → ι → Verdict δ} {P Q : α → δ → Prop} {R : β → δ → Prop}
  {d : δ} {p : Prog σ ε ι α} {f : α → Prog σ ε ι β}

theorem bind (h : p.Typed rule P d) (hf : ∀ a d, P a d → (f a).Typed rule R d) :
    (p >>= f).Typed rule R d := by
  show (p.bind f).Typed rule R d
  induction p generalizing d with
  | ret a => exact hf a d h
  | spin => trivial
  | step event effect next ih =>
    intro s
    have hs := h s
    split at hs
    · exact ih s hs
    split at hs
    · exact ih s hs
    · exact hs
    · trivial

theorem act {g : σ → Act σ ε ι α} (h : ∀ s, match g s with
      | .done a _ none => Q a d
      | .done a _ (some i) =>
        match rule d i with
        | .go d' => Q a d'
        | .forbid => False
        | .ignore => True
      | .block | .panic _ => True) : (Prog.act g).Typed rule Q d := by
  intro s
  have hs := h s
  cases hg : g s with
  | done a s' event =>
    rw [hg] at hs
    cases event with
    | none | some =>
      simp only [hg, Act.event, Act.next]
      exact hs
  | block | panic => simp [hg, Act.event, Act.next, Typed]

end Prog.Typed

end Xv6.Lib
