import Mathlib.Order.WellFounded
import Mathlib.Data.Fintype.EquivFin
import Mathlib.Order.Fin.Basic
import Lexigram.Proofs.Hint

/-! # Leading symbols

A rule that begins with a non-terminal leads from its own non-terminal to that one, at the same place
of the text. The step is guarded when a hint is sure to shorten the range. In a grounded grammar the
unguarded steps come to an end.
-/

namespace Lexigram

namespace Grammar

variable {V : Type}

def Holds (g : Grammar V) : Symbol → Prop
  | .terminal _ => True
  | .nonTerminal index => index < g.nonTerminals.length

def Closed (g : Grammar V) : Prop :=
  ∀ symbol ∈ g.symbols, g.Holds symbol

/-- A rule of `a` begins with `b`, and either the rule has no terminal or hints do not bound `b`. -/
def LeadsUnguarded (g : Grammar V) (a b : Nat) : Prop :=
  ∃ nt, g.get? a = some nt ∧ ∃ rule ∈ nt.rules, rule.symbols.head? = some (.nonTerminal b) ∧
    ¬ ((∃ t, .terminal t ∈ rule.symbols) ∧ ∃ led, g.get? b = some led ∧ led.hintPruning = true)

def Grounded (g : Grammar V) : Prop :=
  ∀ a, ¬ Relation.TransGen g.LeadsUnguarded a a

variable {g : Grammar V}

theorem get?_isSome_of_holds {index : Nat} (h : g.Holds (.nonTerminal index)) :
    ∃ nt, g.get? index = some nt :=
  ⟨_, List.getElem?_eq_getElem h⟩

theorem exists_stream [OfToken V] (tokens : List Token) {symbol : Symbol} (h : g.Holds symbol)
    (start stop : Nat) (hint : Option Terminal) :
    ∃ source, g.stream tokens symbol start stop hint = .ok source := by
  cases symbol with
  | terminal t => exact ⟨_, rfl⟩
  | nonTerminal index =>
    obtain ⟨nt, hNt⟩ := get?_isSome_of_holds h
    exact ⟨nt.stream tokens start stop hint, by rw [stream, hNt]⟩

theorem Closed.holds (hClosed : g.Closed) {index : Nat} {nt : NonTerminal V} {rule : Rule V}
    {symbol : Symbol} (hNt : g.get? index = some nt) (hRule : rule ∈ nt.rules)
    (hSymbol : symbol ∈ rule.symbols) : g.Holds symbol := by
  apply hClosed
  apply List.mem_cons_of_mem
  exact List.mem_flatMap.mpr ⟨nt, List.mem_of_getElem? hNt,
    List.mem_flatMap.mpr ⟨rule, hRule, hSymbol⟩⟩

/-- Whatever passes from the non-terminals that a non-terminal leads to unguarded to that one holds of
all of them. -/
theorem Grounded.induction (hGrounded : g.Grounded) {motive : Nat → Prop}
    (step : ∀ a, g.Holds (.nonTerminal a) →
      (∀ b, g.Holds (.nonTerminal b) → g.LeadsUnguarded a b → motive b) → motive a)
    {a : Nat} (ha : g.Holds (.nonTerminal a)) : motive a := by
  let led (b a : Fin g.nonTerminals.length) : Prop := Relation.TransGen g.LeadsUnguarded a b
  have hTrans : IsTrans _ led := ⟨fun _ _ _ hab hbc => hbc.trans hab⟩
  have hIrrefl : Std.Irrefl led := ⟨fun a => hGrounded a⟩
  have hWf : WellFounded led := Finite.wellFounded_of_trans_of_irrefl led
  exact hWf.induction (C := fun a => motive a) ⟨a, ha⟩ fun a ih =>
    step a a.isLt fun b hb hLeads => ih ⟨b, hb⟩ (.single hLeads)

end Grammar

/-- A leading step shortens the range of what it leads to, or leaves it and is unguarded. -/
theorem NonTerminal.bound_lt_or_unguarded {V : Type} {g : Grammar V} (tokens : List Token)
    {a b start stop : Nat} {nt led : NonTerminal V} {rule : Rule V} (hNt : g.get? a = some nt)
    (hRule : rule ∈ nt.rules) (hHead : rule.symbols.head? = some (.nonTerminal b))
    (hLed : g.get? b = some led) (hStart : start < stop) :
    led.bound tokens start stop rule.hint < stop ∨
      led.bound tokens start stop rule.hint = stop ∧ g.LeadsUnguarded a b := by
  unfold bound
  cases hHint : rule.hint with
  | none =>
    refine .inr ⟨rfl, nt, hNt, rule, hRule, hHead, ?_⟩
    rintro ⟨⟨t, ht⟩, -⟩
    obtain ⟨hint, hSome⟩ := Rule.exists_hint ht
    rw [hHint] at hSome
    cases hSome
  | some t =>
    dsimp only
    split
    · exact .inl (lastOccurrence_lt t hStart)
    · rename_i hPruning
      refine .inr ⟨rfl, nt, hNt, rule, hRule, hHead, ?_⟩
      rintro ⟨-, led', hLed', hPruning'⟩
      rw [hLed] at hLed'
      cases hLed'
      exact hPruning hPruning'

end Lexigram
