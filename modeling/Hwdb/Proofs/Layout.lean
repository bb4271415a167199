import Hwdb.Record.Assembly

/-!
# `Hwdb.Proofs.Layout`: the blocks of a file and the lines that may stand in them

Blank lines cut a file into blocks. A `Layout` is what they have cut so far: the blocks
that have ended, and the lines of the block in hand. `Layout.add` takes one more line.

Whether a line may come next depends on the lines of its block alone, and of these only on
three things: whether there are any, whether one is a match key, and whether one belongs to
the properties. `Layout.fault?` is this rule, and `Layout.endFault?` the rule for the end
of a file. An `Orderly` block has been filled without a fault.

`Orderly.comments_of_keys_nil` is what an assembly relies on when it does not count the
lines of a block: as long as there is no match key, there are only comments.
-/

set_option autoImplicit false

namespace Hwdb

namespace Line

/-- The match key on a line. -/
def key? : Line → Option MatchKey
  | key k => some k
  | _ => none

/-- The property on a line. -/
def property? : Line → Option Property
  | property p => some p
  | _ => none

/-- Only a property line has a property, and it has the one that it was read as. It turns a
statement about properties into one about lines. -/
theorem property?_eq_some_iff {l : Line} {p : Property} :
    l.property? = some p ↔ l = .property p := by
  cases l <;> simp [property?]

/-- Whether a line can only stand after the match keys of its block. -/
def isBody : Line → Bool
  | indentedComment | property _ => true
  | _ => false

/-- The kinds of some lines with their numbers, of which the first comes after `count`
others. -/
def ofTexts (count : Nat) : List Text → List (Numbered Line)
  | [] => []
  | t :: ts => ⟨count + 1, ofText t⟩ :: ofTexts (count + 1) ts

/-- Two runs of lines are numbered one after the other: the second one goes on with the
number after the last line of the first one. -/
theorem ofTexts_append (count : Nat) (ts us : List Text) :
    ofTexts count (ts ++ us) = ofTexts count ts ++ ofTexts (count + ts.length) us := by
  induction ts generalizing count with
  | nil => rfl
  | cons t ts ih =>
      rw [List.cons_append, ofTexts, ih, ofTexts, List.cons_append, List.length_cons,
        show count + 1 + ts.length = count + (ts.length + 1) from by omega]

/-- Numbering the lines changes no line. What a file has can be told from its lines alone,
wherever its numbers begin. -/
theorem map_item_ofTexts (count : Nat) (ts : List Text) :
    (ofTexts count ts).map Numbered.item = ts.map ofText := by
  induction ts generalizing count with
  | nil => rfl
  | cons t ts ih => exact congrArg _ (ih (count + 1))

end Line

/-- The blocks of a file of which some lines have been taken. -/
structure Layout where
  /-- The blocks that a blank line has ended. -/
  ended : List (List (Numbered Line))
  /-- The lines after the last blank line. -/
  current : List (Numbered Line)

namespace Layout

/-! ### The lines of one block -/

/-- The match keys among some lines. -/
def keys (b : List (Numbered Line)) : List (Numbered MatchKey) :=
  b.filterMap fun l => l.item.key?.map (⟨l.line, ·⟩)

/-- The properties among some lines. -/
def properties (b : List (Numbered Line)) : List (Numbered Property) :=
  b.filterMap fun l => l.item.property?.map (⟨l.line, ·⟩)

/-- Whether some lines go on to the properties of their block. -/
def hasBody (b : List (Numbered Line)) : Bool :=
  b.any fun l => l.item.isBody

/-- There is no match key among no lines. This and the five lemmas below are how `simp`
works out what a block has from the pieces it is put together of. -/
@[simp]
theorem keys_nil : keys [] = [] := rfl

/-- There is no property among no lines. A block begins like that. -/
@[simp]
theorem properties_nil : properties [] = [] := rfl

/-- No lines do not go on to properties. A block begins in its header. -/
@[simp]
theorem hasBody_nil : hasBody [] = false := rfl

/-- The match keys of two runs of lines are those of the first one and then those of the
second one. They keep the order of the lines. -/
@[simp]
theorem keys_append (b c : List (Numbered Line)) : keys (b ++ c) = keys b ++ keys c :=
  List.filterMap_append

/-- The properties of two runs of lines are those of the first one and then those of the
second one. They keep the order of the lines. -/
@[simp]
theorem properties_append (b c : List (Numbered Line)) :
    properties (b ++ c) = properties b ++ properties c :=
  List.filterMap_append

/-- Two runs of lines go on to properties if one of them does. It does not matter which
one. -/
@[simp]
theorem hasBody_append (b c : List (Numbered Line)) :
    hasBody (b ++ c) = (hasBody b || hasBody c) :=
  List.any_append

/-- What one more line adds to the match keys of a block: its own match key with its number,
if it has one. An assembly that takes a line adds the same. -/
theorem keys_concat (b : List (Numbered Line)) (n : Nat) (l : Line) :
    keys (b ++ [⟨n, l⟩]) = keys b ++ (l.key?.map (Numbered.mk n)).toList := by
  rw [keys_append]
  cases l <;> rfl

/-- What one more line adds to the properties of a block, which is `keys_concat` for
properties. An assembly that takes a line adds the same. -/
theorem properties_concat (b : List (Numbered Line)) (n : Nat) (l : Line) :
    properties (b ++ [⟨n, l⟩])
      = properties b ++ (l.property?.map (Numbered.mk n)).toList := by
  rw [properties_append]
  cases l <;> rfl

/-- One more line makes a block go on to its properties, or the block has done so before.
Nothing makes a block go back to its match keys. -/
theorem hasBody_concat (b : List (Numbered Line)) (n : Nat) (l : Line) :
    hasBody (b ++ [⟨n, l⟩]) = (hasBody b || l.isBody) := by
  rw [hasBody_append]
  simp [hasBody]

/-- A block without match keys is one in which no line is a match key. Whether there are
numbers does not matter to this. -/
theorem keys_eq_nil_iff {b : List (Numbered Line)} :
    keys b = [] ↔ ∀ l ∈ b, l.item.key? = none := by
  simp [keys, List.filterMap_eq_nil_iff]

/-- A block without properties is one in which no line is a property. A malformed property
does not count as one. -/
theorem properties_eq_nil_iff {b : List (Numbered Line)} :
    properties b = [] ↔ ∀ l ∈ b, l.item.property? = none := by
  simp [properties, List.filterMap_eq_nil_iff]

/-- A block that does not go on to properties has neither a property nor an indented
comment. A comment that is not indented counts for neither part. -/
theorem hasBody_eq_false_iff {b : List (Numbered Line)} :
    hasBody b = false ↔ ∀ l ∈ b, l.item.isBody = false := by
  simp [hasBody]

/-- A block that does not go on to properties has none. The converse fails: an indented
comment alone makes a block go on. -/
theorem properties_eq_nil_of_hasBody_eq_false {b : List (Numbered Line)}
    (h : hasBody b = false) : properties b = [] := by
  rw [hasBody_eq_false_iff] at h
  rw [properties_eq_nil_iff]
  intro l hl
  have hbody := h l hl
  cases hitem : l.item with
  | property p =>
      rw [hitem] at hbody
      cases hbody
  | _ => rfl

/-- The match keys of a block, without their numbers, can be picked out of the lines without
their numbers. The lines without numbers are how a text describes its file. -/
theorem map_item_keys (b : List (Numbered Line)) :
    (keys b).map Numbered.item = (b.map Numbered.item).filterMap Line.key? := by
  rw [keys, List.map_filterMap, List.filterMap_map]
  refine congrArg (List.filterMap · b) (funext fun l => ?_)
  show (l.item.key?.map _).map _ = l.item.key?
  cases l.item.key? <;> rfl

/-- The properties of a block, without their numbers, can be picked out of the lines without
their numbers, as in `map_item_keys`. -/
theorem map_item_properties (b : List (Numbered Line)) :
    (properties b).map Numbered.item = (b.map Numbered.item).filterMap Line.property? := by
  rw [properties, List.map_filterMap, List.filterMap_map]
  refine congrArg (List.filterMap · b) (funext fun l => ?_)
  show (l.item.property?.map _).map _ = l.item.property?
  cases l.item.property? <;> rfl

/-! ### Faults -/

/-- Why a block may not end, if it may not: match keys need a property. -/
def endFault? (b : List (Numbered Line)) : Option Fault :=
  if keys b ≠ [] ∧ properties b = [] then some .missingProperties else none

/-- Why a line may not come after the others of its block, if it may not. -/
def fault? (before : List (Numbered Line)) : Line → Option Fault
  | .blank => if before = [] then some .unexpectedBlank else endFault? before
  | .comment => none
  | .indentedComment =>
      if keys before = [] then some (.notAKey "indented comment".toList) else none
  | .key k => if hasBody before then some (.missingSeparator k.text) else none
  | .property _ => if keys before = [] then some .propertyBeforeKey else none
  | .malformedProperty text =>
      if keys before = [] then some .propertyBeforeKey else some (.malformedProperty text)
  | .unknown text => some (.notAKey text)

/-- A block that has been filled line by line without a fault. -/
inductive Orderly : List (Numbered Line) → Prop
  | nil : Orderly []
  | concat {b : List (Numbered Line)} {l : Numbered Line} :
      Orderly b → l.item ≠ .blank → fault? b l.item = none → Orderly (b ++ [l])

/-- Before its first match key, a block has comments only. An assembly does not count the
lines of its block, and with this it need not: nothing that matters is lost as long as there
is no match key. -/
theorem Orderly.comments_of_keys_nil {b : List (Numbered Line)} (h : Orderly b)
    (hkeys : keys b = []) : ∀ l ∈ b, l.item = .comment := by
  -- The last line is no match key, and without one only a comment has no fault.
  induction h with
  | nil => simp
  | @concat b l hb hblank hfault ih =>
      rw [keys_append, List.append_eq_nil_iff] at hkeys
      obtain ⟨hkeys, hkey⟩ := hkeys
      have hl : l.item = .comment := by
        cases hitem : l.item with
        | blank => exact absurd hitem hblank
        | comment => rfl
        | key k => simp [keys, hitem, Line.key?] at hkey
        | _ => simp [hitem, fault?, hkeys] at hfault
      intro m hm
      rcases List.mem_append.1 hm with hm | hm
      · exact ih hkeys m hm
      · rw [List.mem_singleton.1 hm, hl]

/-- Without match keys there is nothing that belongs to properties either, as there are
comments only. An assembly could not tell such lines from comments, and in an orderly block
it need not. -/
theorem Orderly.hasBody_eq_false {b : List (Numbered Line)} (h : Orderly b)
    (hkeys : keys b = []) : hasBody b = false := by
  rw [hasBody_eq_false_iff]
  intro l hl
  rw [h.comments_of_keys_nil hkeys l hl]
  rfl

/-! ### The blocks of a file -/

/-- No line has been taken. -/
def empty : Layout :=
  ⟨[], []⟩

/-- The layout with one more line. -/
def add (y : Layout) (l : Numbered Line) : Layout :=
  if l.item = .blank then ⟨y.ended ++ [y.current], []⟩ else ⟨y.ended, y.current ++ [l]⟩

/-- The layout with some more lines. -/
def addAll (y : Layout) (ls : List (Numbered Line)) : Layout :=
  ls.foldl add y

/-- The blocks that have ended and the one in hand, which may be empty. -/
def blocks (y : Layout) : List (List (Numbered Line)) :=
  y.ended ++ [y.current]

/-- Each of some lines may stand where it stands when they come one after the other. -/
def Accepts (y : Layout) : List (Numbered Line) → Prop
  | [] => True
  | l :: ls => fault? y.current l.item = none ∧ (y.add l).Accepts ls

/-- No lines leave a layout as it is. With `addAll_cons` it takes the lines from the
front. -/
@[simp]
theorem addAll_nil (y : Layout) : y.addAll [] = y := rfl

/-- Lines are added from the front, one at a time, which is the shape that inductions over
the lines use. -/
@[simp]
theorem addAll_cons (y : Layout) (l : Numbered Line) (ls : List (Numbered Line)) :
    y.addAll (l :: ls) = (y.add l).addAll ls := rfl

/-- Adding two runs of lines is adding the first one and then the second one. So a file can
be cut between two of its lines. -/
@[simp]
theorem addAll_append (y : Layout) (ls ms : List (Numbered Line)) :
    y.addAll (ls ++ ms) = (y.addAll ls).addAll ms :=
  List.foldl_append

/-- Two runs of lines may stand where they stand if the first one may, and the second one
may after it. The second half is judged from the layout that the first one leaves. -/
theorem accepts_append {y : Layout} {ls ms : List (Numbered Line)} :
    y.Accepts (ls ++ ms) ↔ y.Accepts ls ∧ (y.addAll ls).Accepts ms := by
  induction ls generalizing y with
  | nil => exact (true_and _).symm ▸ Iff.rfl
  | cons l ls ih =>
      show fault? y.current l.item = none ∧ (y.add l).Accepts (ls ++ ms) ↔ _
      rw [ih, ← and_assoc]
      rfl

/-- A blank line ends the block in hand, and the next block begins empty. This also holds
for an empty block, which is a fault for `fault?` and not here. -/
theorem add_blank {y : Layout} {l : Numbered Line} (h : l.item = .blank) :
    y.add l = ⟨y.ended ++ [y.current], []⟩ :=
  if_pos h

/-- Any other line goes to the end of the block in hand. The blocks that have ended stay as
they are. -/
theorem add_of_ne {y : Layout} {l : Numbered Line} (h : l.item ≠ .blank) :
    y.add l = ⟨y.ended, y.current ++ [l]⟩ :=
  if_neg h

/-- A line that may come next leaves the block in hand orderly: a blank line begins a new
one, and any other line is the next step of `Orderly.concat`. -/
theorem orderly_add {y : Layout} {l : Numbered Line} (h : Orderly y.current)
    (hfault : fault? y.current l.item = none) : Orderly (y.add l).current := by
  by_cases hblank : l.item = .blank
  · rw [add_blank hblank]
    exact .nil
  · rw [add_of_ne hblank]
    exact .concat h hblank hfault

/-- Lines that may stand where they stand leave the block in hand orderly. It is the
invariant under which an assembly follows a layout. -/
theorem orderly_addAll {y : Layout} {ls : List (Numbered Line)} (h : Orderly y.current)
    (hls : y.Accepts ls) : Orderly (y.addAll ls).current := by
  induction ls generalizing y with
  | nil => exact h
  | cons l ls ih => exact ih (orderly_add h hls.1) hls.2

/-- Lines one after the other: either all of them may stand where they stand, or there is a
first one that may not, and those before it may. Reading a file has no other way to go. -/
theorem accepts_or_fault (y : Layout) (count : Nat) (ts : List Text) :
    y.Accepts (Line.ofTexts count ts) ∨
      ∃ before t after f, ts = before ++ t :: after ∧
        y.Accepts (Line.ofTexts count before) ∧
        fault? (y.addAll (Line.ofTexts count before)).current (Line.ofText t) = some f := by
  induction ts generalizing y count with
  | nil => exact Or.inl trivial
  | cons t ts ih =>
      cases hfault : fault? y.current (Line.ofText t) with
      | some f => exact Or.inr ⟨[], t, ts, f, rfl, trivial, hfault⟩
      | none =>
          -- This line is taken, and the search goes on from the layout with it.
          rcases ih (y.add ⟨count + 1, Line.ofText t⟩) (count + 1) with hts | hfirst
          · exact Or.inl ⟨hfault, hts⟩
          · obtain ⟨before, s, after, f, hts, hbefore, hs⟩ := hfirst
            exact Or.inr ⟨t :: before, s, after, f, by rw [hts]; rfl, ⟨hfault, hbefore⟩, hs⟩

/-- The layout of a file with the given lines. -/
def ofTexts (ts : List Text) : Layout :=
  empty.addAll (Line.ofTexts 0 ts)

/-- Each of the given lines may stand where it stands in a file. -/
def AcceptsTexts (ts : List Text) : Prop :=
  empty.Accepts (Line.ofTexts 0 ts)

/-- The layout of a file with one line more. The line gets the number after those of the
lines before it. It is how an induction on the lines from the last one goes on. -/
theorem ofTexts_concat (ts : List Text) (t : Text) :
    ofTexts (ts ++ [t]) = (ofTexts ts).add ⟨ts.length + 1, Line.ofText t⟩ := by
  rw [ofTexts, Line.ofTexts_append, addAll_append, Nat.zero_add]
  rfl

/-- One line more may stand at the end of a file if the lines before it may, and it has no
fault after the last block of them. -/
theorem acceptsTexts_concat {ts : List Text} {t : Text} :
    AcceptsTexts (ts ++ [t])
      ↔ AcceptsTexts ts ∧ fault? (ofTexts ts).current (Line.ofText t) = none := by
  rw [AcceptsTexts, Line.ofTexts_append, accepts_append]
  exact and_congr Iff.rfl (and_iff_left trivial)

end Layout

end Hwdb
