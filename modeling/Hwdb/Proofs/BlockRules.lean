import Mathlib.Data.List.DropRight
import Hwdb.Proofs.Line
import Hwdb.Proofs.Paragraph

/-!
# `Hwdb.Proofs.BlockRules`: what makes a line bad

The rules for blocks can be said without a run over the file. The block of a line is what
stands between it and the last blank line before it, and `Breach` says which lines are bad
after which block, and what is wrong with them. Only the kinds of the lines in the block
matter, and whether a line before it was bad does not.

`breach_iff` ties this to the layout of the lines before. So an assembly takes all lines
that are not bad (`acceptsTexts_iff`), and `Record.parse_firstBreach` says that the first
bad line is the one that is reported, in the words of its rule.
-/

set_option autoImplicit false

namespace Hwdb

open Layout (AcceptsTexts fault? endFault?)
open Line (Kind)

/-! ### Rules -/

namespace BlockRules

/-- The kinds of some lines. -/
def kinds (ls : List Text) : List Kind :=
  ls.map fun l => (Line.ofText l).kind

/-- The kinds of the lines after the last blank one. -/
def lastBlock (ls : List Text) : List Kind :=
  (kinds ls).rtakeWhile (· ≠ .blank)

/-- A line is bad, given the kinds of the lines in its block before it. -/
inductive Breach (block : List Kind) (line : Text) : Fault → Prop
  /-- A blank line has no block to end. -/
  | unexpectedBlank : Line.ofText line = .blank → block = [] →
      Breach block line .unexpectedBlank
  /-- A blank line ends a block with match keys and without properties. -/
  | missingProperties : Line.ofText line = .blank → .key ∈ block → .property ∉ block →
      Breach block line .missingProperties
  /-- An indented comment stands before all match keys. -/
  | indentedComment : Line.ofText line = .indentedComment → .key ∉ block →
      Breach block line (.notAKey "indented comment".toList)
  /-- A property stands before all match keys. -/
  | propertyBeforeKey {p : Property} : Line.ofText line = .property p → .key ∉ block →
      Breach block line .propertyBeforeKey
  /-- A line that should be a property, and is none, does so, too. -/
  | malformedBeforeKey {t : Text} : Line.ofText line = .malformedProperty t →
      .key ∉ block → Breach block line .propertyBeforeKey
  /-- After a match key, it is its own form that is wrong. -/
  | malformedProperty {t : Text} : Line.ofText line = .malformedProperty t →
      .key ∈ block → Breach block line (.malformedProperty line)
  /-- A match key comes after the properties have begun. -/
  | missingSeparator {k : MatchKey} : Line.ofText line = .key k →
      .property ∈ block ∨ .indentedComment ∈ block →
      Breach block line (.missingSeparator line)
  /-- The line is of no kind that may stand anywhere. -/
  | unknown {t : Text} : Line.ofText line = .unknown t → Breach block line (.notAKey line)

/-- The line after the first `i` ones is bad. -/
def BreachAt (ls : List Text) (i : Nat) (f : Fault) : Prop :=
  ∃ l, ls[i]? = some l ∧ Breach (lastBlock (ls.take i)) l f

/-- The last block has match keys and no property. -/
def Unfinished (ls : List Text) : Prop :=
  .key ∈ lastBlock ls ∧ .property ∉ lastBlock ls

/-- The number of blank lines that end a block with match keys. -/
def completeRecords (ls : List Text) : Nat :=
  (List.range ls.length).countP fun i =>
    (kinds ls)[i]? = some .blank ∧ .key ∈ lastBlock (ls.take i)

instance (ls : List Text) : Decidable (Unfinished ls) :=
  inferInstanceAs (Decidable (_ ∧ _))

/-- What one more line does to the last block: a blank line empties it, and any other line
goes to its end. This is the step of `kinds_current`, where a layout does the same. -/
theorem lastBlock_concat (ls : List Text) (l : Text) :
    lastBlock (ls ++ [l])
      = if (Line.ofText l).kind = .blank then [] else lastBlock ls ++ [(Line.ofText l).kind] := by
  rw [lastBlock, kinds, List.map_append, List.map_singleton, List.rtakeWhile_concat]
  by_cases h : (Line.ofText l).kind = .blank <;> simp [h, lastBlock, kinds]

/-- What one more line does to the number of complete records: it grows with a blank line
after match keys, and with no other line. -/
theorem completeRecords_concat (ls : List Text) (l : Text) :
    completeRecords (ls ++ [l])
      = completeRecords ls
        + if (Line.ofText l).kind = .blank ∧ .key ∈ lastBlock ls then 1 else 0 := by
  -- At the positions before the new line nothing changes, neither the kind nor the block.
  have hbefore : ∀ i ∈ List.range ls.length,
      ((kinds (ls ++ [l]))[i]? = some .blank ∧ .key ∈ lastBlock ((ls ++ [l]).take i)
        ↔ (kinds ls)[i]? = some .blank ∧ .key ∈ lastBlock (ls.take i)) := by
    intro i hi
    have hi := List.mem_range.1 hi
    have hkind : (kinds (ls ++ [l]))[i]? = (kinds ls)[i]? := by
      rw [kinds, List.map_append]
      exact List.getElem?_append_left (by rwa [List.length_map])
    rw [hkind, List.take_append_of_le_length (Nat.le_of_lt hi)]
  have hlast : (kinds (ls ++ [l]))[ls.length]? = some (Line.ofText l).kind := by
    simp [kinds]
  rw [completeRecords, List.length_append, List.length_singleton, List.range_succ,
    List.countP_append, List.countP_singleton, hlast, List.take_left']
  · refine congrArg₂ (· + ·) (List.countP_congr fun i hi => ?_) ?_
    · simpa using hbefore i hi
    · simp
  · rfl

/-! ### Rules and layouts -/

/-- The lines after the last blank one are those of the block in hand. So a rule over the
kinds of these lines can be held against the layout. -/
theorem kinds_current (ls : List Text) :
    Paragraph.kinds (Layout.ofTexts ls).current = lastBlock ls := by
  induction ls using List.reverseRecOn with
  | nil => rfl
  | append_singleton ls l ih =>
      rw [Layout.ofTexts_concat, lastBlock_concat]
      cases hline : Line.ofText l with
      | blank =>
          rw [Layout.add_blank rfl]
          rfl
      | _ =>
          rw [Layout.add_of_ne (by simp), Paragraph.kinds_append, ih]
          rfl

/-- The block in hand has no match key exactly if none stands after the last blank line.
This and the three lemmas below translate what a layout asks of its block in hand. -/
theorem keys_current_eq_nil_iff {ls : List Text} :
    Layout.keys (Layout.ofTexts ls).current = [] ↔ .key ∉ lastBlock ls := by
  rw [Paragraph.keys_eq_nil_iff, kinds_current]

/-- The block in hand has no property exactly if none stands after the last blank line. -/
theorem properties_current_eq_nil_iff {ls : List Text} :
    Layout.properties (Layout.ofTexts ls).current = [] ↔ .property ∉ lastBlock ls := by
  rw [Paragraph.properties_eq_nil_iff, kinds_current]

/-- The block in hand has gone on to its properties exactly if a property or an indented
comment stands after the last blank line. -/
theorem hasBody_current_iff {ls : List Text} :
    Layout.hasBody (Layout.ofTexts ls).current = true
      ↔ .property ∈ lastBlock ls ∨ .indentedComment ∈ lastBlock ls := by
  rw [← Bool.not_eq_false, Paragraph.hasBody_eq_false_iff, kinds_current]
  constructor
  · intro h
    by_contra hno
    refine h fun k hk => ⟨?_, ?_⟩ <;> rintro rfl
    · exact hno (Or.inr hk)
    · exact hno (Or.inl hk)
  · rintro (h | h) hno
    · exact (hno _ h).2 rfl
    · exact (hno _ h).1 rfl

/-- The block in hand is empty exactly if nothing stands after the last blank line. Only
then is a blank line unexpected. -/
theorem current_eq_nil_iff {ls : List Text} :
    (Layout.ofTexts ls).current = [] ↔ lastBlock ls = [] := by
  rw [← kinds_current, Paragraph.kinds, List.map_eq_nil_iff]

/-- A file may not end exactly if its last block is unfinished, and there is one fault only
that says so. The same fault is reported for a blank line after such a block. -/
theorem endFault?_eq_some_iff {ls : List Text} {f : Fault} :
    endFault? (Layout.ofTexts ls).current = some f
      ↔ Unfinished ls ∧ f = .missingProperties := by
  have hunfinished : Unfinished ls ↔ Layout.keys (Layout.ofTexts ls).current ≠ []
      ∧ Layout.properties (Layout.ofTexts ls).current = [] := by
    rw [ne_eq, keys_current_eq_nil_iff, properties_current_eq_nil_iff, not_not, Unfinished]
  rw [hunfinished, endFault?]
  split
  · next h => simp [h, eq_comm]
  · next h => simp [h]

/-- What is quoted of a malformed property is the line as it stands in the file. So the
fault in `Breach` can name the line, and need not be read off its kind. -/
theorem eq_of_ofText_eq_malformedProperty {l t : Text}
    (h : Line.ofText l = .malformedProperty t) : t = l := by
  cases Line.ofText_eq_iff.1 h with
  | malformedProperty => rfl

/-- What is quoted of a line of no kind is the line as it stands in the file. It is the
other kind of line that is kept as it is, to be quoted. -/
theorem eq_of_ofText_eq_unknown {l t : Text} (h : Line.ofText l = .unknown t) : t = l := by
  cases Line.ofText_eq_iff.1 h with
  | unknown => rfl

/-- A line that breaks a rule may not stand after the lines before it, and its fault is the
one the rule names. -/
theorem fault?_of_breach {ls : List Text} {l : Text} {f : Fault}
    (h : Breach (lastBlock ls) l f) :
    fault? (Layout.ofTexts ls).current (Line.ofText l) = some f := by
  -- Each rule is one branch of `fault?`, and its conditions decide that branch.
  cases h with
  | unexpectedBlank hline hblock =>
      rw [hline, fault?, if_pos (current_eq_nil_iff.2 hblock)]
  | missingProperties hline hkey hproperty =>
      have hne : (Layout.ofTexts ls).current ≠ [] := fun hnil => by
        rw [current_eq_nil_iff.1 hnil] at hkey
        cases hkey
      rw [hline, fault?, if_neg hne]
      exact endFault?_eq_some_iff.2 ⟨⟨hkey, hproperty⟩, rfl⟩
  | indentedComment hline hkey =>
      rw [hline, fault?, if_pos (keys_current_eq_nil_iff.2 hkey)]
  | propertyBeforeKey hline hkey =>
      rw [hline, fault?, if_pos (keys_current_eq_nil_iff.2 hkey)]
  | malformedBeforeKey hline hkey =>
      rw [hline, fault?, if_pos (keys_current_eq_nil_iff.2 hkey)]
  | malformedProperty hline hkey =>
      have hkeys := mt keys_current_eq_nil_iff.1 (not_not.2 hkey)
      rw [hline, fault?, if_neg hkeys, eq_of_ofText_eq_malformedProperty hline]
  | missingSeparator hline hbody =>
      rw [hline, fault?, if_pos (hasBody_current_iff.2 hbody),
        ← (Line.ofText_eq_key_iff.1 hline).1]
  | unknown hline =>
      rw [hline, fault?, eq_of_ofText_eq_unknown hline]

/-- A line that may not stand after the lines before it breaks a rule. The cases are the
kinds of the line; the rules exclude each other, so the fault tells which one it was. -/
theorem breach_of_fault? {ls : List Text} {l : Text} {f : Fault}
    (h : fault? (Layout.ofTexts ls).current (Line.ofText l) = some f) :
    Breach (lastBlock ls) l f := by
  -- The other way the branches are taken apart, by the kind of the line.
  cases hline : Line.ofText l with
  | blank =>
      rw [hline, fault?] at h
      split at h
      · next hnil =>
          cases h
          exact .unexpectedBlank hline (current_eq_nil_iff.1 hnil)
      · obtain ⟨⟨hkey, hproperty⟩, rfl⟩ := endFault?_eq_some_iff.1 h
        exact .missingProperties hline hkey hproperty
  | comment =>
      rw [hline] at h
      cases h
  | indentedComment =>
      rw [hline, fault?] at h
      split at h
      · next hkeys =>
          cases h
          exact .indentedComment hline (keys_current_eq_nil_iff.1 hkeys)
      · cases h
  | key k =>
      rw [hline, fault?] at h
      split at h
      · next hbody =>
          cases h
          rw [← (Line.ofText_eq_key_iff.1 hline).1]
          exact .missingSeparator hline (hasBody_current_iff.1 hbody)
      · cases h
  | property p =>
      rw [hline, fault?] at h
      split at h
      · next hkeys =>
          cases h
          exact .propertyBeforeKey hline (keys_current_eq_nil_iff.1 hkeys)
      · cases h
  | malformedProperty t =>
      rw [hline, fault?, eq_of_ofText_eq_malformedProperty hline] at h
      split at h
      · next hkeys =>
          cases h
          exact .malformedBeforeKey hline (keys_current_eq_nil_iff.1 hkeys)
      · next hkeys =>
          cases h
          rw [keys_current_eq_nil_iff, not_not] at hkeys
          exact .malformedProperty hline hkeys
  | unknown t =>
      rw [hline, fault?, eq_of_ofText_eq_unknown hline] at h
      cases h
      exact .unknown hline

/-- The rules say of each line what the layout of the lines before it says. So the rules
need no run over the file, and yet decide it. -/
theorem breach_iff {ls : List Text} {l : Text} {f : Fault} :
    Breach (lastBlock ls) l f
      ↔ fault? (Layout.ofTexts ls).current (Line.ofText l) = some f :=
  ⟨fault?_of_breach, breach_of_fault?⟩

/-! ### The first bad line -/

/-- The lines after a line have no say in whether it is bad. This is why the first bad line
can be found by looking at the lines before it. -/
theorem breachAt_take_iff {ls : List Text} {i j : Nat} {f : Fault} :
    BreachAt (ls.take i) j f ↔ j < i ∧ BreachAt ls j f := by
  by_cases hj : j < i
  · rw [BreachAt, BreachAt, List.getElem?_take_of_lt hj, List.take_take,
      Nat.min_eq_left (Nat.le_of_lt hj), and_iff_right hj]
  · simp [BreachAt, hj]

/-- Lines none of which is bad may all stand where they stand, and the other way round. The
induction is on the lines from the last one, which is bad or not after all the others have
been taken. -/
theorem acceptsTexts_iff {ls : List Text} :
    AcceptsTexts ls ↔ ∀ i f, ¬ BreachAt ls i f := by
  induction ls using List.reverseRecOn with
  | nil => exact ⟨fun _ _ _ ⟨_, hl, _⟩ => (by cases hl), fun _ => trivial⟩
  | append_singleton ls l ih =>
      -- A line is bad among `ls`, or it is the last one and bad.
      have hbefore : ∀ {i f}, BreachAt ls i f ↔ i < ls.length ∧ BreachAt (ls ++ [l]) i f := by
        intro i f
        rw [← breachAt_take_iff, List.take_left' rfl]
      have hlast : ∀ {f}, BreachAt (ls ++ [l]) ls.length f
          ↔ fault? (Layout.ofTexts ls).current (Line.ofText l) = some f := by
        intro f
        rw [BreachAt, List.getElem?_concat_length, List.take_left' rfl, ← breach_iff]
        simp
      rw [Layout.acceptsTexts_concat, ih, Option.eq_none_iff_forall_ne_some]
      constructor
      · rintro ⟨hnone, hl⟩ i f hbad
        -- A bad line is one of the lines, so it is one of `ls` or the new one.
        have hi : i < ls.length + 1 := by
          obtain ⟨m, hm, -⟩ := hbad
          have hlt := (List.getElem?_eq_some_iff.1 hm).1
          rwa [List.length_append] at hlt
        rcases Nat.lt_succ_iff_lt_or_eq.1 hi with hi | rfl
        · exact hnone i f (hbefore.2 ⟨hi, hbad⟩)
        · exact hl f (hlast.1 hbad)
      · intro h
        exact ⟨fun i f hbad => h i f (hbefore.1 hbad).2, fun f hfault => h _ f (hlast.2 hfault)⟩

/-- The lines before a line may stand where they stand exactly if none of them is bad: this
is what makes a bad line the first one. -/
theorem acceptsTexts_take_iff {ls : List Text} {i : Nat} :
    AcceptsTexts (ls.take i) ↔ ∀ j < i, ∀ f, ¬ BreachAt ls j f := by
  rw [acceptsTexts_iff]
  constructor
  · intro h j hj f hbad
    exact h j f (breachAt_take_iff.2 ⟨hj, hbad⟩)
  · intro h j f hbad
    obtain ⟨hj, hbad⟩ := breachAt_take_iff.1 hbad
    exact h j hj f hbad

/-- The records that were closed are those of the blocks with match keys that a blank line
has ended. This is the number that an error reports as complete. -/
theorem length_closed (path : Path) (ls : List Text) :
    ((Layout.ofTexts ls).ended.filterMap (Record.ofBlock? path)).length
      = completeRecords ls := by
  induction ls using List.reverseRecOn with
  | nil => rfl
  | append_singleton ls l ih =>
      rw [Layout.ofTexts_concat, completeRecords_concat, ← ih]
      -- A blank line alone can close a record, if there are match keys in hand.
      cases hline : Line.ofText l with
      | blank =>
          rw [Layout.add_blank rfl, List.filterMap_append, List.length_append]
          cases hkeys : Layout.keys (Layout.ofTexts ls).current with
          | nil =>
              have hkey := keys_current_eq_nil_iff.1 hkeys
              simp [Record.ofBlock?_of_keys_eq_nil hkeys, hkey]
          | cons k ks =>
              have hkey : .key ∈ lastBlock ls := by
                rw [← not_not (a := _ ∈ _), ← keys_current_eq_nil_iff, hkeys]
                simp
              simp [Record.ofBlock?_of_keys_eq_cons hkeys, hkey, Line.kind]
      | _ =>
          rw [Layout.add_of_ne (by simp)]
          simp [Line.kind]

end BlockRules

namespace Record

open BlockRules

/-- Reading a file reports its first bad line, with its number and with what is wrong with
it. A file without a bad line is read, unless its last block has match keys and no property:
then the fault is on the last line. -/
theorem parse_firstBreach (path : Path) (t : Text) :
    (∀ i f, BreachAt t.lines i f → (∀ j < i, ∀ g, ¬ BreachAt t.lines j g) →
      Record.parse path t = .error ⟨i + 1, f, completeRecords (t.lines.take i)⟩) ∧
    ((∀ i f, ¬ BreachAt t.lines i f) →
      if Unfinished t.lines then
        Record.parse path t
          = .error ⟨t.lines.length, .missingProperties, completeRecords t.lines⟩
      else ∃ rs, Record.parse path t = .ok rs) := by
  constructor
  · rintro i f ⟨l, hl, hbad⟩ hfirst
    obtain ⟨hi, rfl⟩ := List.getElem?_eq_some_iff.1 hl
    -- The file is cut at its first bad line: `parse_of_fault` needs no more.
    have hlines : t.lines = t.lines.take i ++ t.lines[i] :: t.lines.drop (i + 1) := by
      rw [List.getElem_cons_drop, List.take_append_drop]
    have hlength : (t.lines.take i).length = i := List.length_take_of_le (Nat.le_of_lt hi)
    have hbefore := acceptsTexts_take_iff.2 hfirst
    rw [parse_of_fault hlines hbefore (breach_iff.1 hbad), hlength, length_closed]
  · intro hnone
    have haccepts := acceptsTexts_iff.2 hnone
    split
    · next hunfinished =>
        have hend := endFault?_eq_some_iff.2 ⟨hunfinished, rfl⟩
        rw [parse_of_endFault haccepts hend, length_closed]
    · next hfinished =>
        refine ⟨_, parse_of_accepts haccepts (Option.eq_none_iff_forall_ne_some.2 ?_)⟩
        exact fun f hend => hfinished (endFault?_eq_some_iff.1 hend).1

/-- A match key after properties in the second block, and match keys at the end of a file,
after which nothing but a comment comes. -/
theorem parse_firstBreach_separator :
    ∃ t u : Text,
      t = "libinput:name:a\n A=1\n\nlibinput:name:b\n  # b\nlibinput:name:c\n\n\n".toList ∧
      Record.parse ⟨[]⟩ t = .error ⟨6, .missingSeparator "libinput:name:c".toList, 1⟩ ∧
      u = "# u\n\nlibinput:name:a\n# a".toList ∧
      Record.parse ⟨[]⟩ u = .error ⟨4, .missingProperties, 0⟩ := by
  refine ⟨_, _, rfl, ?_, rfl, ?_⟩
  · refine (parse_firstBreach ⟨[]⟩ _).1 5 _ ⟨_, rfl, ?_⟩ (acceptsTexts_take_iff.1 ?_)
    · exact .missingSeparator (k := ⟨.libinput, .name, ['c']⟩) (by decide +kernel)
        (by decide +kernel)
    · exact ⟨by decide +kernel, by decide +kernel, by decide +kernel, by decide +kernel,
        by decide +kernel, trivial⟩
  · have h := (parse_firstBreach ⟨[]⟩ "# u\n\nlibinput:name:a\n# a".toList).2
      (acceptsTexts_iff.1 ⟨by decide +kernel, by decide +kernel, by decide +kernel,
        by decide +kernel, trivial⟩)
    rwa [if_pos (by decide +kernel)] at h

end Record

end Hwdb
