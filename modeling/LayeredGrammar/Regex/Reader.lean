import LayeredGrammar.Regex.Basic

/-!
# Reading regular expressions

The written form is cut into marks (`Regex.marks`), and a stack of open groups turns the marks into
an expression (`Regex.ofMarks`). Understood are literal characters, escapes, the dot, bracketed
classes, groups with and without capture, `|`, and the quantifiers `*`, `+`, `?` and braces, each
greedy or lazy, behind something that can be repeated. Anything else is refused: anchors,
look-around, references to groups, characters by number, possessive quantifiers, and what is no
expression at all.
-/

namespace LayeredGrammar.Regex

/-- A piece of the written form. -/
inductive Mark where
  | single (r : Regex)
  | bar
  | groupStart
  | groupEnd
  | quantifier (least : Nat) (most : Option Nat) (greedy : Bool)
  | unknown
  deriving DecidableEq, Repr

/-! ## Escapes -/

/-- The control character an escape letter stands for. -/
def controlChar : Char → Option Char
  | 'n' => some '\n'
  | 't' => some '\t'
  | 'r' => some '\r'
  | 'f' => some '\x0c'
  | 'v' => some '\x0b'
  | 'a' => some '\x07'
  | '0' => some '\x00'
  | _ => none

/-- The class an escape letter stands for. -/
def escapedClass : Char → Option ClassItem
  | 'w' => some (.category .word)
  | 'd' => some (.category .digit)
  | 's' => some (.category .blank)
  | 'W' => some (.outside .word)
  | 'D' => some (.outside .digit)
  | 'S' => some (.outside .blank)
  | _ => none

/-- The character an escape stands for: a control character, or anything but a letter or digit
itself. -/
def escapedChar (c : Char) : Option Char :=
  match controlChar c with
  | some d => some d
  | none => if c.isAlphanum then none else some c

/-- Whether the escape of a character goes on: a zero with octal digits behind it is a character by
number. -/
def isNumber (c : Char) (rest : List Char) : Bool :=
  c == '0' && rest.head?.any fun d => d.isDigit && d ≤ '7'

/-- An escape outside a bracketed class. -/
def escape (c : Char) : Mark :=
  match escapedClass c with
  | some item => .single (.oneOf false [item])
  | none =>
    if c = 'b' then .single .boundary
    else match escapedChar c with
      | some d => .single (.char d)
      | none => .unknown

/-! ## Bracketed classes -/

/-- A character or a category inside a bracketed class. -/
inductive ClassAtom where
  | plain (c : Char)
  | dash
  | item (i : ClassItem)
  | bad
  deriving DecidableEq, Repr

/-- An escape inside a bracketed class. -/
def classEscape (c : Char) : ClassAtom :=
  match escapedClass c with
  | some i => .item i
  | none =>
    if c = 'b' then .plain '\x08'
    else match escapedChar c with
      | some d => .plain d
      | none => .bad

/-- The atoms up to the closing bracket, and what follows it. A closing bracket that comes first
stands for itself. -/
def classAtoms : Bool → List Char → Option (List ClassAtom × List Char)
  | _, [] => none
  | first, ']' :: rest =>
    if first then (classAtoms false rest).map fun r => (.plain ']' :: r.1, r.2) else some ([], rest)
  | _, '\\' :: c :: rest => (classAtoms false rest).map fun r =>
    ((if isNumber c rest then .bad else classEscape c) :: r.1, r.2)
  | _, '-' :: rest => (classAtoms false rest).map fun r => (.dash :: r.1, r.2)
  | _, c :: rest => (classAtoms false rest).map fun r => (.plain c :: r.1, r.2)

/-- A character given as a dash or as itself. -/
def ClassAtom.char? : ClassAtom → Option Char
  | .plain c => some c
  | .dash => some '-'
  | _ => none

/-- One atom as a class member. -/
def ClassAtom.toItem? : ClassAtom → Option ClassItem
  | .plain c => some (.range c c)
  | .dash => some (.range '-' '-')
  | .item i => some i
  | .bad => none

/-- Members of a class: a dash between two characters makes a range. -/
def classItems : List ClassAtom → Option (List ClassItem)
  | [] => some []
  | a :: .dash :: b :: rest =>
    match a.char?, b.char? with
    | some lo, some hi =>
      if lo.toNat ≤ hi.toNat then (classItems rest).map (.range lo hi :: ·) else none
    | _, _ => none
  | a :: rest => a.toItem?.bind fun i => (classItems rest).map (i :: ·)

/-- A bracketed class after its opening bracket, and what follows it. -/
def readClass (cs : List Char) : Option (Regex × List Char) :=
  let (negated, body) := match cs with
    | '^' :: rest => (true, rest)
    | _ => (false, cs)
  (classAtoms true body).bind fun r => (classItems r.1).map fun items => (.oneOf negated items, r.2)

/-! ## Quantifiers -/

/-- The value of a run of decimal digits. -/
def decimalValue (cs : List Char) : Nat :=
  cs.foldl (fun n c => 10 * n + (c.toNat - '0'.toNat)) 0

/-- A number if any digit is written. -/
def number? (cs : List Char) : Option Nat := if cs.isEmpty then none else some (decimalValue cs)

/-- Bounds in braces after the opening brace, and what follows the closing one. -/
def readBounds (cs : List Char) : Option (Nat × Option Nat × List Char) :=
  let lo := cs.takeWhile Char.isDigit
  match cs.dropWhile Char.isDigit with
  | '}' :: rest => (number? lo).map fun n => (n, some n, rest)
  | ',' :: more =>
    match more.dropWhile Char.isDigit with
    | '}' :: rest => some ((number? lo).getD 0, number? (more.takeWhile Char.isDigit), rest)
    | _ => none
  | _ => none

/-- The number of rounds from which on bounds are refused. -/
def tooManyRounds : Nat := 4294967295

/-- Whether bounds are in order and not too large. -/
def isRange (least : Nat) (most : Option Nat) : Bool :=
  least < tooManyRounds && most.all fun m => least ≤ m && m < tooManyRounds

/-- A quantifier is lazy when a question mark follows. -/
def quantified (least : Nat) (most : Option Nat) : List Char → Mark × List Char
  | '?' :: rest => (.quantifier least most false, rest)
  | rest => (.quantifier least most true, rest)

/-! ## Marks -/

/-- The first mark of a text, given its first character and the rest, and what follows it. -/
def firstMark (c : Char) (rest : List Char) : Mark × List Char :=
  match c with
  | '|' => (.bar, rest)
  | '(' => match rest with
    | '?' :: ':' :: more => (.groupStart, more)
    | '?' :: more => (.unknown, more)
    | _ => (.groupStart, rest)
  | ')' => (.groupEnd, rest)
  | '.' => (.single .dot, rest)
  | '^' => (.unknown, rest)
  | '$' => (.unknown, rest)
  | '[' => match readClass rest with
    | some (r, more) => (.single r, more)
    | none => (.unknown, rest)
  | '\\' => match rest with
    | d :: more => (if isNumber d more then .unknown else escape d, more)
    | [] => (.unknown, [])
  | '*' => quantified 0 none rest
  | '+' => quantified 1 none rest
  | '?' => quantified 0 (some 1) rest
  | '{' => match readBounds rest with
    | some (least, most, more) =>
      if isRange least most then quantified least most more else (.unknown, more)
    | none => (.single (.char '{'), rest)
  | _ => (.single (.char c), rest)

theorem quantified_length_le (least : Nat) (most : Option Nat) (cs : List Char) :
    (quantified least most cs).2.length ≤ cs.length := by
  unfold quantified
  split <;> simp

theorem classAtoms_length_lt {first : Bool} {cs : List Char} {r : List ClassAtom × List Char}
    (h : classAtoms first cs = some r) : r.2.length < cs.length := by
  fun_induction classAtoms first cs generalizing r with
  | case1 => simp at h
  | case2 rest ih =>
    obtain ⟨q, hq, rfl⟩ := Option.map_eq_some_iff.1 h
    have := ih hq
    simp only [List.length_cons]
    omega
  | case3 =>
    cases h
    simp
  | case4 _ c rest ih =>
    obtain ⟨q, hq, rfl⟩ := Option.map_eq_some_iff.1 h
    have := ih hq
    simp only [List.length_cons]
    omega
  | case5 _ rest ih =>
    obtain ⟨q, hq, rfl⟩ := Option.map_eq_some_iff.1 h
    have := ih hq
    simp only [List.length_cons]
    omega
  | case6 _ c rest _ _ _ ih =>
    obtain ⟨q, hq, rfl⟩ := Option.map_eq_some_iff.1 h
    have := ih hq
    simp only [List.length_cons]
    omega

theorem readClass_length_le {cs more : List Char} {r : Regex} (h : readClass cs = some (r, more)) :
    more.length ≤ cs.length := by
  unfold readClass at h
  split at h
  next negated body hb =>
    have hbody : body.length ≤ cs.length := by
      split at hb <;> cases hb <;> simp
    obtain ⟨q, hq, hmap⟩ := Option.bind_eq_some_iff.1 h
    obtain ⟨items, _, heq⟩ := Option.map_eq_some_iff.1 hmap
    cases heq
    have := classAtoms_length_lt hq
    omega

theorem readBounds_length_le {cs more : List Char} {least : Nat} {most : Option Nat}
    (h : readBounds cs = some (least, most, more)) : more.length ≤ cs.length := by
  have drop_le (l : List Char) : (l.dropWhile Char.isDigit).length ≤ l.length :=
    (List.dropWhile_sublist _).length_le
  have hcs := drop_le cs
  unfold readBounds at h
  split at h
  next rest hd =>
    obtain ⟨n, _, heq⟩ := Option.map_eq_some_iff.1 h
    cases heq
    rw [hd, List.length_cons] at hcs
    omega
  next tail hd =>
    have htail := drop_le tail
    rw [hd, List.length_cons] at hcs
    split at h
    next rest hd' =>
      cases h
      rw [hd', List.length_cons] at htail
      omega
    next => cases h
  next => cases h

theorem firstMark_length_le (c : Char) (rest : List Char) :
    (firstMark c rest).2.length ≤ rest.length := by
  unfold firstMark
  split
  case h_2 => split <;> simp only [List.length_cons] <;> omega
  case h_7 =>
    split
    next hr => exact readClass_length_le hr
    next => exact Nat.le_refl _
  case h_8 => split <;> simp
  case h_12 =>
    split
    next hb =>
      split
      · exact Nat.le_trans (quantified_length_le _ _ _) (readBounds_length_le hb)
      · exact readBounds_length_le hb
    next => exact Nat.le_refl _
  case h_9 => exact quantified_length_le _ _ _
  case h_10 => exact quantified_length_le _ _ _
  case h_11 => exact quantified_length_le _ _ _
  all_goals exact Nat.le_refl _

/-- The written form cut into marks. -/
def marks : List Char → List Mark
  | [] => []
  | c :: rest => (firstMark c rest).1 :: marks (firstMark c rest).2
termination_by cs => cs.length
decreasing_by
  have := firstMark_length_le c rest
  simp only [List.length_cons]
  omega

/-! ## What can be repeated -/

/-- Whether a mark asks for rounds of what stands before it. -/
def Mark.isQuantifier : Mark → Bool
  | .quantifier .. => true
  | _ => false

/-- Whether a quantifier may follow a mark: a character, a class or the end of a group. -/
def Mark.isRepeatable : Mark → Bool
  | .single r => r != .boundary
  | .groupEnd => true
  | _ => false

/-- Whether all quantifiers follow something that can be repeated; `repeatable` tells of what stands
before the marks. -/
def quantifiersFit : Bool → List Mark → Bool
  | _, [] => true
  | repeatable, m :: ms => (repeatable || !m.isQuantifier) && quantifiersFit m.isRepeatable ms

/-! ## Groups -/

/-- An open group: its finished alternatives and the items of the present one, latest first. -/
structure Frame where
  done : List Regex := []
  items : List Regex := []
  deriving DecidableEq, Repr

/-- The items of an alternative in a row. -/
def joined (items : List Regex) : Regex :=
  match items with
  | [] => .empty
  | r :: rest => rest.foldl (fun acc a => .seq a acc) r

/-- The alternatives of a group in order. -/
def Frame.close (f : Frame) : Regex :=
  f.done.foldl (fun acc a => .alt a acc) (joined f.items)

/-- Build the expression from its marks; `outer` holds the groups around the present one. -/
def ofMarks (outer : List Frame) (frame : Frame) : List Mark → Option Regex
  | [] => if outer.isEmpty then some frame.close else none
  | .single r :: rest => ofMarks outer { frame with items := r :: frame.items } rest
  | .bar :: rest => ofMarks outer ⟨joined frame.items :: frame.done, []⟩ rest
  | .groupStart :: rest => ofMarks (frame :: outer) {} rest
  | .groupEnd :: rest =>
    match outer with
    | [] => none
    | f :: fs => ofMarks fs { f with items := frame.close :: f.items } rest
  | .quantifier least most greedy :: rest =>
    match frame.items with
    | [] => none
    | r :: items => ofMarks outer { frame with items := between r least most greedy :: items } rest
  | .unknown :: _ => none

/-- The expression a text denotes, if it is understood. -/
def read? (s : String) : Option Regex :=
  if quantifiersFit false (marks s.toList) then ofMarks [] {} (marks s.toList) else none

end LayeredGrammar.Regex
