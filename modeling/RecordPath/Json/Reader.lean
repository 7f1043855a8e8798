import RecordPath.Json.Number

namespace RecordPath.Json

/-- What was read from the front of a text, and the rest of it. -/
structure Taken (α : Type) (cs : List Char) where
  value : α
  rest : List Char
  shorter : rest.length < cs.length

namespace Taken

variable {α β : Type} {cs ds : List Char}

def map (f : α → β) (t : Taken α cs) : Taken β cs := ⟨f t.value, t.rest, t.shorter⟩

/-- The same reading from a longer text that ends alike. -/
def widen (t : Taken α ds) (h : ds.length ≤ cs.length) : Taken α cs :=
  ⟨t.value, t.rest, Nat.lt_of_lt_of_le t.shorter h⟩

end Taken

def isSpace (c : Char) : Bool := c == ' ' || c == '\t' || c == '\n' || c == '\r'

def skipSpace (cs : List Char) : List Char := cs.dropWhile isSpace

theorem length_skipSpace_le (cs : List Char) : (skipSpace cs).length ≤ cs.length :=
  (List.dropWhile_sublist isSpace).length_le

def expect? : List Char → List Char → Option (List Char)
  | [], cs => some cs
  | _ :: _, [] => none
  | w :: word, c :: cs => if w = c then expect? word cs else none

theorem length_expect?_le {word cs rest : List Char} (h : expect? word cs = some rest) :
    rest.length ≤ cs.length := by
  fun_induction expect? word cs with
  | case1 => cases h; exact Nat.le_refl _
  | case2 => cases h
  | case3 w word cs ih => exact Nat.le_succ_of_le (ih h)
  | case4 => cases h

def hexValue? (c : Char) : Option Nat :=
  if c.isDigit then some (c.toNat - '0'.toNat)
  else if 'a' ≤ c ∧ c ≤ 'f' then some (c.toNat - 'a'.toNat + 10)
  else if 'A' ≤ c ∧ c ≤ 'F' then some (c.toNat - 'A'.toNat + 10)
  else none

def unit? (a b c d : Char) : Option Nat := do
  return ((← hexValue? a) * 16 + (← hexValue? b)) * 256 + (← hexValue? c) * 16 + (← hexValue? d)

def unescape? (c : Char) : Option Char :=
  if c = '\"' ∨ c = '\\' ∨ c = '/' then some c
  else if c = 'b' then some '\x08'
  else if c = 'f' then some '\x0c'
  else if c = 'n' then some '\n'
  else if c = 'r' then some '\r'
  else if c = 't' then some '\t'
  else none

/-- The second unit of a surrogate pair, which has to be written right behind the first. -/
def takeLow? : List Char → Option (Nat × List Char)
  | '\\' :: 'u' :: a :: b :: c :: d :: rest => do
    let low ← unit? a b c d
    if 0xDC00 ≤ low ∧ low ≤ 0xDFFF then some (low, rest) else none
  | _ => none

/-- The character that stands behind a backslash; one beyond the units is named by two of them. -/
def takeEscape? : List Char → Option (Char × List Char)
  | 'u' :: a :: b :: c :: d :: rest => do
    let unit ← unit? a b c d
    if 0xDC00 ≤ unit ∧ unit ≤ 0xDFFF then none
    else if 0xD800 ≤ unit ∧ unit ≤ 0xDBFF then
      (takeLow? rest).map fun (low, rest) =>
        (Char.ofNat (0x10000 + (unit - 0xD800) * 0x400 + (low - 0xDC00)), rest)
    else some (Char.ofNat unit, rest)
  | c :: rest => (unescape? c).map fun c => (c, rest)
  | [] => none

theorem length_takeLow? {cs rest : List Char} {low : Nat} (h : takeLow? cs = some (low, rest)) :
    rest.length ≤ cs.length := by
  unfold takeLow? at h
  split at h
  · obtain ⟨low, _, h⟩ := Option.bind_eq_some_iff.1 h
    split at h <;> cases h
    simp only [List.length_cons]
    omega
  · cases h

theorem length_takeEscape? {cs rest : List Char} {c : Char} (h : takeEscape? cs = some (c, rest)) :
    rest.length ≤ cs.length := by
  unfold takeEscape? at h
  split at h
  · obtain ⟨unit, _, h⟩ := Option.bind_eq_some_iff.1 h
    split at h
    · cases h
    · split at h
      · obtain ⟨⟨low, r⟩, hl, he⟩ := Option.map_eq_some_iff.1 h
        obtain ⟨-, rfl⟩ := Prod.mk.inj he
        have := length_takeLow? hl
        simp only [List.length_cons]
        omega
      · cases h
        simp only [List.length_cons]
        omega
  · obtain ⟨_, _, he⟩ := Option.map_eq_some_iff.1 h
    cases he
    simp only [List.length_cons]
    omega
  · cases h

def takeString? (cs : List Char) : Option (Taken (List Char) cs) :=
  match cs with
  | [] => none
  | c :: rest =>
    if c = '\"' then some ⟨[], rest, Nat.lt_succ_self _⟩
    else if c = '\\' then
      match h : takeEscape? rest with
      | none => none
      | some (c, r) =>
        have hr := length_takeEscape? h
        (takeString? r).map fun t => (t.map (c :: ·)).widen (Nat.le_succ_of_le hr)
    else if c.toNat < 0x20 then none
    else (takeString? rest).map fun t => (t.map (c :: ·)).widen (Nat.le_succ _)
termination_by cs.length

def takeLiteral? (word : List Char) (j : Json) (cs : List Char) : Option (Taken Json cs) :=
  match word with
  | [] => none
  | w :: word =>
    match cs with
    | [] => none
    | c :: rest =>
      if w = c then
        match h : expect? word rest with
        | none => none
        | some r => some ⟨j, r, Nat.lt_succ_of_le (length_expect?_le h)⟩
      else none

def takeJsonNumber? (cs : List Char) : Option (Taken Json cs) :=
  match h : takeNumber? cs with
  | none => none
  | some (t, rest) => t.value?.map fun n => ⟨.number n, rest, length_takeNumber? h⟩

/-- What follows an element: its collection ends with the mark, or goes on behind a comma. -/
def takeSeparator? (close : Char) (cs : List Char) : Option (Taken Bool cs) :=
  match h : skipSpace cs with
  | [] => none
  | c :: rest =>
    have h₁ : rest.length < cs.length := by
      have := length_skipSpace_le cs
      rw [h, List.length_cons] at this
      omega
    if c = close then some ⟨false, rest, h₁⟩
    else if c = ',' then
      some ⟨true, skipSpace rest, Nat.lt_of_le_of_lt (length_skipSpace_le rest) h₁⟩
    else none

def takeName? (cs : List Char) : Option (Taken String cs) :=
  match cs with
  | '\"' :: rest =>
    match takeString? rest with
    | none => none
    | some t =>
      match h : skipSpace t.rest with
      | ':' :: r =>
        some ⟨String.ofList t.value, skipSpace r, by
          have h₁ := t.shorter
          have h₂ := length_skipSpace_le t.rest
          have h₃ := length_skipSpace_le r
          rw [h, List.length_cons] at h₂
          rw [List.length_cons]
          omega⟩
      | _ => none
  | _ => none

def takeEmpty? (close : Char) (cs : List Char) : Option (Taken Unit cs) :=
  match h : skipSpace cs with
  | [] => none
  | c :: rest =>
    if c = close then
      some ⟨(), rest, by
        have := length_skipSpace_le cs
        rw [h, List.length_cons] at this
        omega⟩
    else none

mutual

/-- A value without blanks before it; `depth` limits the arrays and objects that may stand inside
one another. -/
def takeValue? (depth : Nat) (cs : List Char) : Option (Taken Json cs) :=
  match cs with
  | [] => none
  | c :: rest =>
    if c = 'n' then takeLiteral? ['n', 'u', 'l', 'l'] .null (c :: rest)
    else if c = 't' then takeLiteral? ['t', 'r', 'u', 'e'] (.bool true) (c :: rest)
    else if c = 'f' then takeLiteral? ['f', 'a', 'l', 's', 'e'] (.bool false) (c :: rest)
    else if c = '\"' then
      (takeString? rest).map fun t =>
        (t.map fun s => .string (String.ofList s)).widen (Nat.le_succ _)
    else if c = '[' ∨ c = '\x7b' then
      match depth with
      | 0 => none
      | depth + 1 =>
        have h := length_skipSpace_le rest
        if c = '[' then
          match takeEmpty? ']' rest with
          | some t => some ((t.map fun _ => .array []).widen (Nat.le_succ _))
          | none =>
            (takeItems? depth (skipSpace rest)).map fun t =>
              (t.map .array).widen (Nat.le_succ_of_le h)
        else
          match takeEmpty? '\x7d' rest with
          | some t => some ((t.map fun _ => .object []).widen (Nat.le_succ _))
          | none =>
            (takeMembers? depth (skipSpace rest)).map fun t =>
              (t.map fun ms => .object (sorted ms)).widen (Nat.le_succ_of_le h)
    else takeJsonNumber? (c :: rest)
termination_by 2 * cs.length

def takeItems? (depth : Nat) (cs : List Char) : Option (Taken (List Json) cs) :=
  match takeValue? depth cs with
  | none => none
  | some t =>
    match takeSeparator? ']' t.rest with
    | none => none
    | some u =>
      have h := Nat.lt_trans u.shorter t.shorter
      if u.value then
        (takeItems? depth u.rest).map fun v => (v.map (t.value :: ·)).widen (Nat.le_of_lt h)
      else some ⟨[t.value], u.rest, h⟩
termination_by 2 * cs.length + 1

def takeMembers? (depth : Nat) (cs : List Char) : Option (Taken (List (String × Json)) cs) :=
  match takeName? cs with
  | none => none
  | some n =>
    have := n.shorter
    match takeValue? depth n.rest with
    | none => none
    | some t =>
      match takeSeparator? '\x7d' t.rest with
      | none => none
      | some u =>
        have h := Nat.lt_trans u.shorter (Nat.lt_trans t.shorter n.shorter)
        if u.value then
          (takeMembers? depth u.rest).map fun v =>
            (v.map ((n.value, t.value) :: ·)).widen (Nat.le_of_lt h)
        else some ⟨[(n.value, t.value)], u.rest, h⟩
termination_by 2 * cs.length + 1

end

def maxDepth : Nat := 127

/-- Numbers beyond the doubles are refused, as are too many levels, and of two members with one name
the later counts. -/
def read? (text : String) : Option Json := do
  let t ← takeValue? maxDepth (skipSpace text.toList)
  if (skipSpace t.rest).isEmpty then some t.value else none

end RecordPath.Json
