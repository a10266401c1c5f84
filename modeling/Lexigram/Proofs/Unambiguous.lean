import Lexigram.Proofs.Decimals
import Lexigram.Value

/-! # Values told by their text

No mark of its kind stands at a value that is written as JSON, and none is needed: the text tells the
value. Only numbers that are not finite are written alike.
-/

namespace Lexigram.Value

open Json (Digits Numeral Writes WritesItems)

mutual

def Finite : Value → Prop
  | .float x => x.isFinite = true
  | .list items => FiniteAll items
  | .node _ children => FiniteAll children
  | .text _ | .int _ | .bool _ => True

def FiniteAll : List Value → Prop
  | [] => True
  | v :: rest => v.Finite ∧ FiniteAll rest

end

mutual

def tree : Value → Json
  | .text t => .string (some t.toList)
  | .int n => .number (intChars n.toInt)
  | .float x => .number (jsonFormat.write (.ofFloat x))
  | .bool b => .bool b
  | .list items => .array (trees items)
  | .node kind children =>
    .object [(some "kind".toList, .string (some kind.toList)),
      (some "children".toList, .array (trees children))]

def trees : List Value → List Json
  | [] => []
  | v :: rest => v.tree :: trees rest

end

section Numbers

theorem numeral_intChars (n : Int) : Numeral (intChars n) := by
  unfold intChars
  split
  · exact Json.numeral_toDigits (.inr rfl) n.natAbs
  · exact Json.numeral_toDigits (.inl rfl) n.natAbs

theorem minus_not_mem_toDigits (n : Nat) : '-' ∉ Nat.toDigits 10 n := by
  intro h
  have hDigit := Json.digits_toDigits n '-' h
  cases hDigit

theorem intChars_injective : Function.Injective intChars := by
  intro m n h
  unfold intChars at h
  split at h <;> split at h
  · have := toDigits_injective (List.cons.inj h).2
    omega
  · exact absurd (h ▸ List.mem_cons_self) (minus_not_mem_toDigits n.natAbs)
  · exact absurd (h ▸ List.mem_cons_self) (minus_not_mem_toDigits m.natAbs)
  · have := toDigits_injective h
    omega

theorem of_mem_intChars {n : Int} {c : Char} (h : c ∈ intChars n) : c.isDigit = true ∨ c = '-' := by
  unfold intChars at h
  split at h
  · rcases List.mem_cons.mp h with rfl | h
    · exact .inr rfl
    · exact .inl (Json.digits_toDigits _ c h)
  · exact .inl (Json.digits_toDigits _ c h)

/-- A whole number has neither a point nor an exponent. -/
theorem intChars_ne_write (n : Int) {x : Float64} (h : x.IsFinite) : intChars n ≠ jsonFormat.write x := by
  intro hEq
  rcases FloatFormat.mem_write (show jsonFormat.wholePoint = true from rfl) h with hMark | hMark
  · rw [← hEq] at hMark
    exact absurd (of_mem_intChars hMark) (by decide)
  · rw [← hEq] at hMark
    exact absurd (of_mem_intChars hMark) (by decide)

end Numbers

section Writing

theorem jsonChars_node (kind : String) (children : List Value) : jsonChars (.node kind children) =
    '\x7b' :: ((Json.quote "kind".toList ++ ':' :: (Json.quote kind.toList ++ ',' ::
      (Json.quote "children".toList ++ ':' :: ('[' :: (jsonItems children ++ [']']))))) ++ ['\x7d']) := by
  have hKind : "\x7b\"kind\":".toList = '\x7b' :: (Json.quote "kind".toList ++ [':']) := by decide
  have hChildren : ",\"children\":[".toList = ',' :: (Json.quote "children".toList ++ [':', '[']) := by
    decide
  have hEnd : "]\x7d".toList = [']', '\x7d'] := by decide
  calc jsonChars (.node kind children)
    _ = "\x7b\"kind\":".toList ++ Json.quote kind.toList ++ ",\"children\":[".toList ++
        jsonItems children ++ "]\x7d".toList := rfl
    _ = _ := by
      rw [hKind, hChildren, hEnd]
      simp only [List.append_assoc, List.cons_append, List.nil_append]

theorem writes_array {items : List Value}
    (h : items ≠ [] → WritesItems (trees items) (jsonItems items)) :
    Writes (.array (trees items)) ('[' :: (jsonItems items ++ [']'])) := by
  cases items with
  | nil => exact .emptyArray .nil
  | cons v rest => exact .array (h (List.cons_ne_nil v rest))

mutual

theorem writes_tree (v : Value) (h : v.Finite) : Writes v.tree v.jsonChars := by
  cases v with
  | text t => exact Json.writes_quote t.toList
  | int n => exact .number (numeral_intChars n.toInt)
  | float x => exact .number (jsonFormat.numeral_write (Float64.isFinite_ofFloat h))
  | bool b =>
    cases b with
    | false => exact .no
    | true => exact .yes
  | list items => exact writes_array (writesItems_trees items h)
  | node kind children =>
    rw [jsonChars_node]
    exact .object (Json.writesMembers_more (Json.writes_quote kind.toList)
      (Json.writesMembers_one (writes_array (writesItems_trees children h))))

theorem writesItems_trees (items : List Value) (h : FiniteAll items) (hNonempty : items ≠ []) :
    WritesItems (trees items) (jsonItems items) := by
  cases items with
  | nil => exact absurd rfl hNonempty
  | cons v rest =>
    obtain ⟨hFirst, hRest⟩ := h
    have hRest := writesItems_trees rest hRest
    cases rest with
    | nil => exact Json.writesItems_one (writes_tree v hFirst)
    | cons w rest => exact Json.writesItems_more (writes_tree v hFirst) (hRest (List.cons_ne_nil w rest))

end

end Writing

section Telling

mutual

theorem eq_of_tree (v w : Value) (hv : v.Finite) (hw : w.Finite) (h : v.tree = w.tree) : v = w := by
  cases v with
  | text t =>
    cases w with
    | text t' =>
      have hText : t.toList = t'.toList := Option.some.inj (Json.string.inj h)
      rw [String.toList_inj.mp hText]
    | int | float | bool | list | node => cases h
  | int n =>
    cases w with
    | int n' =>
      have hInt := intChars_injective (Json.number.inj h)
      rw [Int64.toInt_inj.mp hInt]
    | float x =>
      exact absurd (Json.number.inj h) (intChars_ne_write n.toInt (Float64.isFinite_ofFloat hw))
    | text | bool | list | node => cases h
  | float x =>
    cases w with
    | float y =>
      have hParts := jsonFormat.write_injOn (Float64.isFinite_ofFloat hv) (Float64.isFinite_ofFloat hw)
        (Json.number.inj h)
      rw [Float64.ofFloat_injOn hv hw hParts]
    | int n =>
      exact absurd (Json.number.inj h).symm (intChars_ne_write n.toInt (Float64.isFinite_ofFloat hv))
    | text | bool | list | node => cases h
  | bool b =>
    cases w with
    | bool b' => rw [Json.bool.inj h]
    | text | int | float | list | node => cases h
  | list items =>
    cases w with
    | list items' => rw [eq_of_trees items items' hv hw (Json.array.inj h)]
    | text | int | float | bool | node => cases h
  | node kind children =>
    cases w with
    | node kind' children' =>
      obtain ⟨hKind, hRest⟩ := List.cons.inj (Json.object.inj h)
      have hKind : kind.toList = kind'.toList := Option.some.inj (Json.string.inj (Prod.mk.inj hKind).2)
      have hChildren := Json.array.inj (Prod.mk.inj (List.cons.inj hRest).1).2
      rw [String.toList_inj.mp hKind, eq_of_trees children children' hv hw hChildren]
    | text | int | float | bool | list => cases h

theorem eq_of_trees (vs ws : List Value) (hvs : FiniteAll vs) (hws : FiniteAll ws)
    (h : trees vs = trees ws) : vs = ws := by
  cases vs with
  | nil =>
    cases ws with
    | nil => rfl
    | cons => cases h
  | cons v vs =>
    cases ws with
    | nil => cases h
    | cons w ws =>
      obtain ⟨hFirst, hRest⟩ := List.cons.inj h
      rw [eq_of_tree v w hvs.1 hws.1 hFirst, eq_of_trees vs ws hvs.2 hws.2 hRest]

end

end Telling

/-- Values whose floats are finite are the same if they are written in the same way. -/
theorem json_unambiguous (v w : Value) (hv : v.Finite) (hw : w.Finite) (h : v.toJson = w.toJson) :
    v = w := by
  have hText : v.jsonChars = w.jsonChars := String.ofList_injective h
  have hWritten := writes_tree v hv
  rw [hText] at hWritten
  exact eq_of_tree v w hv hw (hWritten.unique (writes_tree w hw))

/-- Two ways to one list, and two numbers of different kinds. -/
theorem json_unambiguous_list :
    reduceToList [.list [.int 1, .float 1.0], .text "1"] = .list [.int 1, .float 1.0, .text "1"] ∧
    toJson (.int 1) ≠ toJson (.float 1.0) := by
  have hFinite : (1.0 : Float).isFinite = true := by decide
  refine ⟨?_, fun h => ?_⟩
  · exact json_unambiguous _ _ ⟨trivial, hFinite, trivial, trivial⟩ ⟨trivial, hFinite, trivial, trivial⟩ rfl
  · cases json_unambiguous (.int 1) (.float 1.0) trivial hFinite h

end Lexigram.Value
