/-! # Positions in a text

A place in a text is given by its offset in UTF-8 bytes and, for people, by line and column. Lines and
columns count from one; a column counts characters.
-/

namespace Lexigram

structure Position where
  offset : Nat := 0
  line : Nat := 1
  column : Nat := 1
  deriving DecidableEq, Repr

namespace Position

def next (p : Position) (c : Char) : Position :=
  if c = '\n' then ⟨p.offset + c.utf8Size, p.line + 1, 1⟩
  else ⟨p.offset + c.utf8Size, p.line, p.column + 1⟩

def after (p : Position) (text : List Char) : Position :=
  text.foldl next p

@[simp] theorem after_nil (p : Position) : p.after [] = p :=
  rfl

@[simp] theorem after_cons (p : Position) (c : Char) (text : List Char) :
    p.after (c :: text) = (p.next c).after text :=
  rfl

theorem after_append (p : Position) (a b : List Char) : p.after (a ++ b) = (p.after a).after b :=
  List.foldl_append

end Position

def byteLength : List Char → Nat
  | [] => 0
  | c :: text => c.utf8Size + byteLength text

@[simp] theorem byteLength_nil : byteLength [] = 0 :=
  rfl

@[simp] theorem byteLength_cons (c : Char) (text : List Char) :
    byteLength (c :: text) = c.utf8Size + byteLength text :=
  rfl

theorem byteLength_append (a b : List Char) : byteLength (a ++ b) = byteLength a + byteLength b := by
  induction a with
  | nil => simp
  | cons c a ih => simp [ih]; omega

theorem Position.offset_after (p : Position) (text : List Char) :
    (p.after text).offset = p.offset + byteLength text := by
  induction text generalizing p with
  | nil => simp
  | cons c text ih =>
    rw [after_cons, ih, byteLength_cons]
    by_cases h : c = '\n' <;> simp [next, h] <;> omega

/-- What is left after so many bytes, if they end between two characters. -/
def dropBytes? : Nat → List Char → Option (List Char)
  | 0, text => some text
  | _ + 1, [] => none
  | n + 1, c :: text => if c.utf8Size ≤ n + 1 then dropBytes? (n + 1 - c.utf8Size) text else none
termination_by structural _ text => text

theorem dropBytes?_append (a b : List Char) : dropBytes? (byteLength a) (a ++ b) = some b := by
  induction a with
  | nil => cases b <;> rfl
  | cons c a ih =>
    obtain ⟨n, hn⟩ : ∃ n, byteLength (c :: a) = n + 1 :=
      ⟨byteLength (c :: a) - 1, by have := c.utf8Size_pos; simp; omega⟩
    rw [hn, List.cons_append, dropBytes?]
    have hle : c.utf8Size ≤ n + 1 := by simp at hn; omega
    have hsub : n + 1 - c.utf8Size = byteLength a := by simp at hn; omega
    rw [if_pos hle, hsub, ih]

theorem dropBytes?_eq_some_iff {n : Nat} {text rest : List Char} : dropBytes? n text = some rest ↔
    ∃ before, text = before ++ rest ∧ n = byteLength before := by
  constructor
  · intro h
    induction text generalizing n with
    | nil =>
      cases n with
      | zero =>
        cases h
        exact ⟨[], rfl, rfl⟩
      | succ n => cases h
    | cons c text ih =>
      cases n with
      | zero =>
        cases h
        exact ⟨[], rfl, rfl⟩
      | succ n =>
        rw [dropBytes?] at h
        split at h
        · obtain ⟨before, rfl, hLength⟩ := ih h
          refine ⟨c :: before, rfl, ?_⟩
          rw [byteLength_cons]
          omega
        · cases h
  · rintro ⟨before, rfl, rfl⟩
    exact dropBytes?_append before rest

theorem byteLength_pos {text : List Char} (h : text ≠ []) : 0 < byteLength text := by
  obtain ⟨c, behind, rfl⟩ := List.exists_cons_of_ne_nil h
  have := c.utf8Size_pos
  rw [byteLength_cons]
  omega

theorem length_lt_of_dropBytes? {n : Nat} {text rest : List Char} (h : dropBytes? n text = some rest)
    (hPos : 0 < n) : rest.length < text.length := by
  obtain ⟨before, rfl, rfl⟩ := dropBytes?_eq_some_iff.mp h
  have hBefore : before ≠ [] := fun hNil => Nat.lt_irrefl 0 (by rwa [hNil] at hPos)
  have := List.length_pos_iff.mpr hBefore
  rw [List.length_append]
  omega

end Lexigram
