import Hwdb.Json
import Hwdb.Proofs.Reader

/-!
# `Hwdb.Proofs.Json`: the written form of a value is the form of no other

`text_injective` says that a JSON value can be told from its written form. Its parts are
written one after the other, so each part gets a lemma about a form with some text behind
it: two forms with something behind them agree only if they are forms of the same part with
the same text behind them. Escapes, strings and brackets show where they end
(`escape_append_inj`, `quoted_append_inj`). A number does not, so no digit may come right
after it, and none does: what follows an item or a member is a comma or a line feed.

`write_append_inj` goes along the writer, which writes values, items and members by one
recursion. The first character of a value tells its kind (`lead_eq_of_write_append_eq`), so
only values of the same kind have to be compared.
-/

set_option autoImplicit false

namespace Hwdb.Json

open Reader (Stops)

/-! ### Strings -/

/-- The number that a hexadecimal digit stands for. -/
def hexValue (c : Char) : Nat :=
  "0123456789abcdef".toList.idxOf c

/-- A hexadecimal digit can be read back. There are sixteen of them, so it is checked for
each. -/
theorem hexValue_hexDigit : ∀ n < 16, hexValue (hexDigit n) = n := by decide

/-- The character that a letter stands for after a backslash. -/
def unescapeLetter (c : Char) : Char :=
  if c = 'b' then '\x08'
  else if c = 'f' then '\x0c'
  else if c = 'n' then '\n'
  else if c = 'r' then '\r'
  else if c = 't' then '\t'
  else c

/-- The first character that the inside of a string stands for, and what comes after it. -/
def unescape? : Text → Option (Char × Text)
  | '\\' :: 'u' :: '0' :: '0' :: h :: l :: rest =>
      some (Char.ofNat (16 * hexValue h + hexValue l), rest)
  | '\\' :: c :: rest => some (unescapeLetter c, rest)
  | c :: rest => some (c, rest)
  | [] => none

/-- Whatever comes after it, the escape of a character stands for that character. So escapes
can be read from the front, and no escape begins another one. -/
theorem unescape?_escape_append (c : Char) (t : Text) :
    unescape? (escape c ++ t) = some (c, t) := by
  unfold escape
  -- The characters with a letter of their own come first, then those that are written with
  -- their number, and last those that stand for themselves.
  split
  · next h => rw [h]; rfl
  split
  · next h => rw [h]; rfl
  split
  · next h => rw [h]; rfl
  split
  · next h => rw [h]; rfl
  split
  · next h => rw [h]; rfl
  split
  · next h => rw [h]; rfl
  split
  · next h => rw [h]; rfl
  split
  · next h =>
      have hlt : c.toNat < 32 := h
      have hvalue : 16 * (c.toNat / 16) + c.toNat % 16 = c.toNat := Nat.div_add_mod _ _
      show some (Char.ofNat (16 * hexValue (hexDigit (c.toNat / 16))
        + hexValue (hexDigit (c.toNat % 16))), t) = some (c, t)
      rw [hexValue_hexDigit _ (by omega), hexValue_hexDigit _ (by omega), hvalue,
        Char.ofNat_toNat]
  · next hbackslash _ _ _ _ _ _ =>
      show unescape? (c :: t) = some (c, t)
      unfold unescape?
      split
      · next heq => exact absurd (List.cons.inj heq).1 hbackslash
      · next heq => exact absurd (List.cons.inj heq).1 hbackslash
      · next heq => rw [(List.cons.inj heq).1, (List.cons.inj heq).2]
      · next heq => cases heq

/-- The first character of the inside of a string can be told from its escape. What comes
after it can be told as well, as its escape has an end. -/
theorem escape_append_inj {c d : Char} {t u : Text} (h : escape c ++ t = escape d ++ u) :
    c = d ∧ t = u := by
  have hread := congrArg unescape? h
  rwa [unescape?_escape_append, unescape?_escape_append, Option.some.injEq,
    Prod.mk.injEq] at hread

/-- A quote inside a string has a backslash before it. So a quote inside a string is never
taken for the end of it. -/
theorem escape_append_ne (c : Char) (t u : Text) : escape c ++ t ≠ '"' :: u := by
  unfold escape
  repeat' split
  case isFalse hquote _ _ _ _ _ _ _ =>
    intro heq
    exact hquote (List.cons.inj heq).1
  all_goals
    intro heq
    cases (List.cons.inj heq).1

/-- A string ends at the first quote without a backslash, so what comes after it can be told
from it. -/
theorem quoted_append_inj {s s' t u : Text} (h : quoted s ++ t = quoted s' ++ u) :
    s = s' ∧ t = u := by
  have hinside : s.flatMap escape ++ '"' :: t = s'.flatMap escape ++ '"' :: u := by
    simpa [quoted] using h
  clear h
  -- On one of the strings: the first escape of the other one stands for the same character,
  -- or one string ends where the other has a quote with a backslash.
  induction s generalizing s' with
  | nil =>
      cases s' with
      | nil => exact ⟨rfl, (List.cons.inj hinside).2⟩
      | cons d s' =>
          rw [List.flatMap_cons, List.append_assoc] at hinside
          exact absurd hinside.symm (escape_append_ne d _ _)
  | cons c s ih =>
      cases s' with
      | nil =>
          rw [List.flatMap_cons, List.append_assoc] at hinside
          exact absurd hinside (escape_append_ne c _ _)
      | cons d s' =>
          rw [List.flatMap_cons, List.flatMap_cons, List.append_assoc,
            List.append_assoc] at hinside
          obtain ⟨rfl, hrest⟩ := escape_append_inj hinside
          obtain ⟨rfl, rfl⟩ := ih hrest
          exact ⟨rfl, rfl⟩

/-! ### Numbers -/

/-- A number is written in digits only. There is no sign and no point in it. -/
theorem isDigit_of_mem_write {n : Nat} {c : Char} (h : c ∈ Decimal.write n) :
    c.isDigit = true :=
  Nat.isDigit_of_mem_toDigits (by decide) (by decide) h

/-- A number ends where its digits end. The hypotheses say that what comes after the two
numbers does not go on with digits. -/
theorem decimal_append_inj {n m : Nat} {t u : Text} (ht : Stops Char.isDigit t)
    (hu : Stops Char.isDigit u) (h : Decimal.write n ++ t = Decimal.write m ++ u) :
    n = m ∧ t = u := by
  have hdigits := congrArg (List.takeWhile Char.isDigit) h
  rw [Reader.takeWhile_append_of_stops (fun _ => isDigit_of_mem_write) ht,
    Reader.takeWhile_append_of_stops (fun _ => isDigit_of_mem_write) hu] at hdigits
  have hread := congrArg Decimal.read hdigits
  rw [Decimal.read_write, Decimal.read_write] at hread
  rw [hdigits] at h
  exact ⟨hread, List.append_cancel_left h⟩

/-! ### Values -/

/-- The first character of the written form of a value, or a zero for any digit. -/
def lead : Json → Char
  | null => 'n'
  | number _ => '0'
  | string _ => '"'
  | array _ => '['
  | object _ => '{'

/-- The first character of the written form of a value shows of which kind the value is. A
number may begin with any digit, for which `lead` has a zero. -/
theorem exists_write_eq_cons (depth : Nat) (j : Json) :
    ∃ c rest, write depth j = c :: rest ∧ (if c.isDigit then '0' else c) = j.lead := by
  cases j with
  | null => exact ⟨'n', _, by rw [write]; rfl, rfl⟩
  | number n =>
      obtain ⟨c, rest, hc⟩ := List.exists_cons_of_ne_nil (Nat.toDigits_ne_nil (n := n) (b := 10))
      -- The first character of a number is one of its digits.
      have hdigit : c.isDigit = true :=
        isDigit_of_mem_write (n := n) (by rw [Decimal.write, hc]; exact List.mem_cons_self)
      exact ⟨c, rest, by rw [write, Decimal.write, hc], if_pos hdigit⟩
  | string t => exact ⟨'"', _, by rw [write]; rfl, rfl⟩
  | array items =>
      cases items with
      | nil => exact ⟨'[', _, by rw [write], rfl⟩
      | cons item items => exact ⟨'[', _, by rw [write]; rfl, rfl⟩
  | object members =>
      cases members with
      | nil => exact ⟨'{', _, by rw [write], rfl⟩
      | cons member members => exact ⟨'{', _, by rw [write]; rfl, rfl⟩

/-- Written forms that begin alike are of values of one kind. Two values of different kinds
need no further comparison. -/
theorem lead_eq_of_write_append_eq {depth : Nat} {j k : Json} {t u : Text}
    (h : write depth j ++ t = write depth k ++ u) : j.lead = k.lead := by
  obtain ⟨c, rest, hc, hj⟩ := exists_write_eq_cons depth j
  obtain ⟨d, rest', hd, hk⟩ := exists_write_eq_cons depth k
  rw [hc, hd] at h
  rw [← hj, ← hk, (List.cons.inj h).1]

/-- What comes after an item of an array is no digit. It is a comma or a line feed. -/
theorem stops_writeItems (depth : Nat) (items : List Json) (t : Text) :
    Stops Char.isDigit (writeItems depth items ++ '\n' :: t) := by
  cases items with
  | nil =>
      rw [writeItems]
      exact Reader.stops_cons.2 (by decide)
  | cons item items =>
      rw [writeItems]
      exact Reader.stops_cons.2 (by decide)

/-- What comes after a member of an object is no digit. It is a comma or a line feed, as
after an item. -/
theorem stops_writeMembers (depth : Nat) (members : List (Text × Json)) (t : Text) :
    Stops Char.isDigit (writeMembers depth members ++ '\n' :: t) := by
  cases members with
  | nil =>
      rw [writeMembers]
      exact Reader.stops_cons.2 (by decide)
  | cons member members =>
      rw [writeMembers]
      exact Reader.stops_cons.2 (by decide)

mutual

/-- A value ends where its written form does, if no digit comes after it: only a number
could go on. The recursion is that of the values, with the lemmas for items and members
beside it. -/
theorem write_append_inj {t u : Text} (ht : Stops Char.isDigit t) (hu : Stops Char.isDigit u) :
    (depth : Nat) → (j k : Json) → write depth j ++ t = write depth k ++ u → j = k ∧ t = u
  -- The first character tells the kind of the other value, and only the same kind is left.
  | depth, null, k, h => by
      cases k with
      | null => exact ⟨rfl, List.append_cancel_left h⟩
      | _ => exact absurd (lead_eq_of_write_append_eq h) (by simp [lead])
  | depth, number n, k, h => by
      cases k with
      | number m =>
          rw [write, write] at h
          obtain ⟨rfl, rfl⟩ := decimal_append_inj ht hu h
          exact ⟨rfl, rfl⟩
      | _ => exact absurd (lead_eq_of_write_append_eq h) (by simp [lead])
  | depth, string s, k, h => by
      cases k with
      | string s' =>
          rw [write, write] at h
          obtain ⟨rfl, rfl⟩ := quoted_append_inj h
          exact ⟨rfl, rfl⟩
      | _ => exact absurd (lead_eq_of_write_append_eq h) (by simp [lead])
  | depth, array [], k, h => by
      cases k with
      | array items =>
          cases items with
          | nil =>
              rw [write] at h
              exact ⟨rfl, List.append_cancel_left h⟩
          | cons item items =>
              simp [write, newLine] at h
      | _ => exact absurd (lead_eq_of_write_append_eq h) (by simp [lead])
  | depth, array (item :: items), k, h => by
      cases k with
      | array items' =>
          cases items' with
          | nil => simp [write, newLine] at h
          | cons item' items' =>
              -- Behind the opening bracket stand the items, and the line feed before the
              -- closing one ends them.
              have hitems : writeItems (depth + 1) (item :: items) ++ newLine depth ++ ']' :: t
                  = writeItems (depth + 1) (item' :: items') ++ newLine depth ++ ']' :: u := by
                simpa [write, writeItems] using h
              simp only [newLine, List.append_assoc, List.cons_append] at hitems
              obtain ⟨heq, hrest⟩ :=
                writeItems_append_inj (depth + 1) (item :: items) (item' :: items') hitems
              exact ⟨by rw [heq], by simpa using hrest⟩
      | _ => exact absurd (lead_eq_of_write_append_eq h) (by simp [lead])
  | depth, object [], k, h => by
      cases k with
      | object members =>
          cases members with
          | nil =>
              rw [write] at h
              exact ⟨rfl, List.append_cancel_left h⟩
          | cons member members => simp [write, newLine] at h
      | _ => exact absurd (lead_eq_of_write_append_eq h) (by simp [lead])
  | depth, object ((name, value) :: members), k, h => by
      cases k with
      | object members' =>
          cases members' with
          | nil => simp [write, newLine] at h
          | cons member' members' =>
              have hmembers : writeMembers (depth + 1) ((name, value) :: members)
                    ++ newLine depth ++ '}' :: t
                  = writeMembers (depth + 1) (member' :: members')
                    ++ newLine depth ++ '}' :: u := by
                simpa [write, writeMembers] using h
              simp only [newLine, List.append_assoc, List.cons_append] at hmembers
              obtain ⟨heq, hrest⟩ := writeMembers_append_inj (depth + 1)
                ((name, value) :: members) (member' :: members') hmembers
              exact ⟨by rw [heq], by simpa using hrest⟩
      | _ => exact absurd (lead_eq_of_write_append_eq h) (by simp [lead])

/-- The items after the first end at a line feed without a comma. The depth tells how far
each line is indented, and is the same on both sides. -/
theorem writeItems_append_inj {t u : Text} :
    (depth : Nat) → (items items' : List Json) →
      writeItems depth items ++ '\n' :: t = writeItems depth items' ++ '\n' :: u →
      items = items' ∧ t = u
  | depth, [], [], h => by
      rw [writeItems] at h
      exact ⟨rfl, (List.cons.inj h).2⟩
  | depth, [], item :: items, h => by
      rw [writeItems, writeItems] at h
      cases (List.cons.inj h).1
  | depth, item :: items, [], h => by
      rw [writeItems, writeItems] at h
      cases (List.cons.inj h).1
  | depth, item :: items, item' :: items', h => by
      simp only [writeItems, List.append_assoc, List.cons_append, List.cons.injEq, true_and,
        List.append_cancel_left_eq] at h
      obtain ⟨rfl, hitems⟩ := write_append_inj (stops_writeItems _ _ _)
        (stops_writeItems _ _ _) depth item item' h
      obtain ⟨rfl, rfl⟩ := writeItems_append_inj depth items items' hitems
      exact ⟨rfl, rfl⟩

/-- The members after the first end at a line feed without a comma, too. The name of a
member is a string, which ends by itself. -/
theorem writeMembers_append_inj {t u : Text} :
    (depth : Nat) → (members members' : List (Text × Json)) →
      writeMembers depth members ++ '\n' :: t = writeMembers depth members' ++ '\n' :: u →
      members = members' ∧ t = u
  | depth, [], [], h => by
      rw [writeMembers] at h
      exact ⟨rfl, (List.cons.inj h).2⟩
  | depth, [], member :: members, h => by
      rw [writeMembers, writeMembers] at h
      cases (List.cons.inj h).1
  | depth, member :: members, [], h => by
      rw [writeMembers, writeMembers] at h
      cases (List.cons.inj h).1
  | depth, (name, value) :: members, (name', value') :: members', h => by
      simp only [writeMembers, List.append_assoc, List.cons_append, List.cons.injEq, true_and,
        List.append_cancel_left_eq] at h
      obtain ⟨rfl, hvalue⟩ := quoted_append_inj h
      rw [List.append_cancel_left_eq] at hvalue
      obtain ⟨rfl, hmembers⟩ := write_append_inj (stops_writeMembers _ _ _)
        (stops_writeMembers _ _ _) depth value value' hvalue
      obtain ⟨rfl, rfl⟩ := writeMembers_append_inj depth members members' hmembers
      exact ⟨rfl, rfl⟩

end

/-- A value can be told from its written form. It is `write_append_inj` with nothing behind
the two values. -/
theorem text_injective : Function.Injective Json.text := by
  intro j k h
  refine (write_append_inj (Reader.stops_nil _) (Reader.stops_nil _) 0 j k ?_).1
  rw [List.append_nil, List.append_nil]
  exact h

end Hwdb.Json
