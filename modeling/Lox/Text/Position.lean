/-!
# Positions

A position in a text is a byte offset together with the line it lies on. It moves over
characters, so that the position after a text is the sum of what its characters add.

* `utf8Length`: the number of bytes of a list of characters;
* `Position.after`, `Position.afterAll`;
* `dropBytes?`, `takeBytes?`: cut a text at a byte offset, which has to fall between two
  characters; `countBytes?` counts the characters before the cut.
-/

namespace Lox

/-- The number of bytes that characters take in UTF-8. -/
def utf8Length : List Char → Nat
  | [] => 0
  | c :: cs => c.utf8Size + utf8Length cs

@[simp] theorem utf8Length_nil : utf8Length [] = 0 := rfl

@[simp] theorem utf8Length_cons (c : Char) (cs : List Char) :
    utf8Length (c :: cs) = c.utf8Size + utf8Length cs := rfl

@[simp] theorem utf8Length_append (cs ds : List Char) :
    utf8Length (cs ++ ds) = utf8Length cs + utf8Length ds := by
  induction cs with
  | nil => simp
  | cons c cs ih => simp [ih, Nat.add_assoc]

/-- A byte offset and the line, counted from 1, that it lies on. -/
structure Position where
  offset : Nat
  line : Nat
  deriving DecidableEq, Repr

namespace Position

/-- The position at the start of a text. -/
def start : Position := ⟨0, 1⟩

/-- The position after a character that stands at `p`. -/
def after (p : Position) (c : Char) : Position :=
  ⟨p.offset + c.utf8Size, if c = '\n' then p.line + 1 else p.line⟩

/-- The position after characters that start at `p`. -/
def afterAll (p : Position) (cs : List Char) : Position := cs.foldl after p

@[simp] theorem afterAll_nil (p : Position) : p.afterAll [] = p := rfl

@[simp] theorem afterAll_cons (p : Position) (c : Char) (cs : List Char) :
    p.afterAll (c :: cs) = (p.after c).afterAll cs := rfl

theorem afterAll_append (p : Position) (cs ds : List Char) :
    p.afterAll (cs ++ ds) = (p.afterAll cs).afterAll ds := by
  simp [afterAll]

@[simp] theorem offset_afterAll (p : Position) (cs : List Char) :
    (p.afterAll cs).offset = p.offset + utf8Length cs := by
  induction cs generalizing p with
  | nil => rfl
  | cons c cs ih => simp [ih, after, Nat.add_assoc]

/-- A text adds a line for each of its newlines. -/
@[simp] theorem line_afterAll (p : Position) (cs : List Char) :
    (p.afterAll cs).line = p.line + cs.count '\n' := by
  induction cs generalizing p with
  | nil => rfl
  | cons c cs ih =>
    by_cases h : c = '\n'
    · subst h
      simp [ih, after, Nat.add_comm, Nat.add_left_comm]
    · simp [ih, after, h]

end Position

/-- What follows the first `n` bytes, if these bytes are whole characters. -/
def dropBytes? : Nat → List Char → Option (List Char)
  | 0, cs => some cs
  | _ + 1, [] => none
  | n + 1, c :: cs => if c.utf8Size ≤ n + 1 then dropBytes? (n + 1 - c.utf8Size) cs else none

/-- The first `n` bytes, if they are whole characters. -/
def takeBytes? : Nat → List Char → Option (List Char)
  | 0, _ => some []
  | _ + 1, [] => none
  | n + 1, c :: cs =>
    if c.utf8Size ≤ n + 1 then (takeBytes? (n + 1 - c.utf8Size) cs).map (c :: ·) else none

/-- How many characters the first `n` bytes are, added to `count`, if they are whole characters. -/
def countBytes? : Nat → Nat → List Char → Option Nat
  | 0, count, _ => some count
  | _ + 1, _, [] => none
  | n + 1, count, c :: cs =>
    if c.utf8Size ≤ n + 1 then countBytes? (n + 1 - c.utf8Size) (count + 1) cs else none

theorem countBytes?_eq (n count : Nat) (cs : List Char) :
    countBytes? n count cs = (takeBytes? n cs).map (count + ·.length) := by
  fun_induction countBytes? n count cs with
  | case1 => simp [takeBytes?]
  | case2 => simp [takeBytes?]
  | case3 n count c cs h ih =>
    rw [ih, takeBytes?, if_pos h, Option.map_map]
    congr 1
    funext ds
    simp [Nat.add_comm, Nat.add_left_comm]
  | case4 n count c cs h => simp [takeBytes?, h]

theorem dropBytes?_utf8Length (cs ds : List Char) :
    dropBytes? (utf8Length cs) (cs ++ ds) = some ds := by
  induction cs with
  | nil => simp [dropBytes?]
  | cons c cs ih =>
    obtain ⟨k, hk⟩ : ∃ k, c.utf8Size = k + 1 := ⟨c.utf8Size - 1, by have := c.utf8Size_pos; omega⟩
    have hlen : utf8Length (c :: cs) = k + utf8Length cs + 1 := by simp [hk]; omega
    rw [hlen, List.cons_append, dropBytes?, hk, if_pos (by omega)]
    rw [show k + utf8Length cs + 1 - (k + 1) = utf8Length cs by omega, ih]

theorem takeBytes?_utf8Length (cs ds : List Char) :
    takeBytes? (utf8Length cs) (cs ++ ds) = some cs := by
  induction cs with
  | nil => simp [takeBytes?]
  | cons c cs ih =>
    obtain ⟨k, hk⟩ : ∃ k, c.utf8Size = k + 1 := ⟨c.utf8Size - 1, by have := c.utf8Size_pos; omega⟩
    have hlen : utf8Length (c :: cs) = k + utf8Length cs + 1 := by simp [hk]; omega
    rw [hlen, List.cons_append, takeBytes?, hk, if_pos (by omega)]
    rw [show k + utf8Length cs + 1 - (k + 1) = utf8Length cs by omega, ih]
    rfl

end Lox
