import Hwdb.Proofs.Blocks
import Hwdb.Proofs.Line

/-!
# `Hwdb.Proofs.Places`: the places in a text

`Text.HasLine` says what stands on the line with a given number. The lines that a reader
numbers are the lines of the text (`Line.mem_ofTexts_lines_iff`), and their numbers
increase (`Line.pairwise_ofTexts`).

So a record never points astray: each of its match keys and properties has the number of
the line that spells it (`Record.hasLine_key`, `Record.hasLine_property`). Their order is
that of the lines, and no blank line comes between two properties of one record
(`Record.not_hasLine_nil_of_between`). A structural error names a line of the text
(`Record.line_le_of_parse_eq_error`).
-/

set_option autoImplicit false

namespace Hwdb

namespace Text

/-- The line with a given number, the first line of a text having the number one. -/
def HasLine (t : Text) (number : Nat) (l : Text) : Prop :=
  1 ≤ number ∧ t.lines[number - 1]? = some l

end Text

namespace Line

/-- Every numbered line comes from the text that stands at its place in the list. The first
of them has the number after `count`. -/
theorem mem_ofTexts_iff {count n : Nat} {ts : List Text} {l : Line} :
    ⟨n, l⟩ ∈ ofTexts count ts ↔ count < n ∧ ts[n - count - 1]?.map ofText = some l := by
  induction ts generalizing count with
  | nil => simp [ofTexts]
  | cons t ts ih =>
      rw [ofTexts, List.mem_cons, ih, Numbered.mk.injEq]
      constructor
      · intro h
        rcases h with ⟨hn, hl⟩ | ⟨hn, hl⟩
        · rw [hn, hl, show count + 1 - count - 1 = 0 from by omega]
          exact ⟨Nat.lt_succ_self count, rfl⟩
        · rw [show n - count - 1 = n - (count + 1) - 1 + 1 from by omega]
          exact ⟨by omega, hl⟩
      · rintro ⟨hn, hl⟩
        -- Either it is the first line, or it is further on, one place nearer to the front.
        by_cases hfirst : n = count + 1
        · rw [show n - count - 1 = 0 from by omega] at hl
          exact Or.inl ⟨hfirst, (Option.some.inj hl).symm⟩
        · rw [show n - count - 1 = n - (count + 1) - 1 + 1 from by omega] at hl
          exact Or.inr ⟨by omega, hl⟩

/-- The numbered lines of a text are its lines. A number names one line, counted from one.
It is how a number in a record is found again in the file. -/
theorem mem_ofTexts_lines_iff {t : Text} {n : Nat} {l : Line} :
    ⟨n, l⟩ ∈ ofTexts 0 t.lines ↔ ∃ s, t.HasLine n s ∧ ofText s = l := by
  rw [mem_ofTexts_iff, Nat.sub_zero, Option.map_eq_some_iff]
  exact ⟨fun ⟨hn, s, hs, hl⟩ => ⟨s, ⟨hn, hs⟩, hl⟩, fun ⟨s, ⟨hn, hs⟩, hl⟩ => ⟨hn, s, hs, hl⟩⟩

/-- Later lines have larger numbers, so no two lines have one number. Whatever is picked out
of them in their order is in order, too. -/
theorem pairwise_ofTexts (count : Nat) (ts : List Text) :
    (ofTexts count ts).Pairwise fun l m => l.line < m.line := by
  induction ts generalizing count with
  | nil => exact .nil
  | cons t ts ih =>
      refine .cons (fun l hl => ?_) (ih (count + 1))
      exact (mem_ofTexts_iff.1 hl).1

end Line

namespace Layout

/-- The match keys of a block are its lines that are match keys, with their numbers. Nothing
else of a block is a match key. -/
theorem mem_keys_iff {b : List (Numbered Line)} {k : Numbered MatchKey} :
    k ∈ keys b ↔ ⟨k.line, .key k.item⟩ ∈ b := by
  rw [keys, List.mem_filterMap]
  constructor
  · rintro ⟨⟨n, item⟩, hl, hk⟩
    cases item with
    | key k' =>
        cases hk
        exact hl
    | _ => cases hk
  · intro hk
    exact ⟨_, hk, rfl⟩

/-- The properties of a block are its lines that are properties, with their numbers. Nothing
else of a block is a property. -/
theorem mem_properties_iff {b : List (Numbered Line)} {p : Numbered Property} :
    p ∈ properties b ↔ ⟨p.line, .property p.item⟩ ∈ b := by
  rw [properties, List.mem_filterMap]
  constructor
  · rintro ⟨⟨n, item⟩, hl, hp⟩
    cases item with
    | property p' =>
        cases hp
        exact hl
    | _ => cases hp
  · intro hp
    exact ⟨_, hp, rfl⟩

/-- What is read off some lines keeps their order. It serves match keys and properties
alike. -/
theorem pairwise_filterMap_item {α : Type} {b : List (Numbered Line)}
    (h : b.Pairwise fun l m => l.line < m.line) (f : Line → Option α) :
    (b.filterMap fun l => (f l.item).map (Numbered.mk l.line)).Pairwise
      fun x y => x.line < y.line := by
  rw [List.pairwise_filterMap]
  refine h.imp fun hlt x hx y hy => ?_
  obtain ⟨a, -, rfl⟩ := Option.map_eq_some_iff.1 hx
  obtain ⟨b, -, rfl⟩ := Option.map_eq_some_iff.1 hy
  exact hlt

/-- A block has all lines between two of its lines, as it is a run of the file. So a blank
line cannot be between them. -/
theorem mem_of_mem_blocks_of_between {ts : List Text} {b : List (Numbered Line)}
    {l m x : Numbered Line} (hb : b ∈ (ofTexts ts).blocks) (hl : l ∈ b) (hm : m ∈ b)
    (hx : x ∈ Line.ofTexts 0 ts) (hlx : l.line < x.line) (hxm : x.line < m.line) : x ∈ b := by
  obtain ⟨before, after, hfile⟩ := isInfix_of_mem_blocks hb
  have horder := Line.pairwise_ofTexts 0 ts
  rw [← hfile] at horder hx
  obtain ⟨horder, -, hafter⟩ := List.pairwise_append.1 horder
  obtain ⟨-, -, hbefore⟩ := List.pairwise_append.1 horder
  rcases List.mem_append.1 hx with hx | hx
  · rcases List.mem_append.1 hx with hx | hx
    · have hlt := hbefore x hx l hl
      omega
    · exact hx
  · have hlt := hafter m (List.mem_append_right _ hm) x hx
    omega

end Layout

namespace Record

/-- A record comes from one block of its file, which is where its line numbers are from. -/
theorem exists_block_of_mem {path : Path} {t : Text} {rs : List Record} {r : Record}
    (h : Record.parse path t = .ok rs) (hr : r ∈ rs) :
    ∃ b ∈ (Layout.ofTexts t.lines).blocks, Record.ofBlock? path b = some r := by
  obtain ⟨-, -, hrs⟩ := parse_eq_ok_iff.1 h
  rw [hrs] at hr
  exact List.mem_filterMap.1 hr

/-- The parts of the record of a block. There is always a match key, because a block without
one gives no record. -/
theorem ofBlock?_eq_some {path : Path} {b : List (Numbered Line)} {r : Record}
    (h : Record.ofBlock? path b = some r) :
    r.path = path ∧ r.keys = Layout.keys b ∧ r.keys ≠ [] ∧
      r.properties = Layout.properties b := by
  cases hkeys : Layout.keys b with
  | nil =>
      rw [ofBlock?_of_keys_eq_nil hkeys] at h
      cases h
  | cons k ks =>
      rw [ofBlock?_of_keys_eq_cons hkeys] at h
      cases h
      exact ⟨rfl, rfl, List.cons_ne_nil k ks, rfl⟩

/-- A record is of the file that was read. All places in it are in this file. -/
theorem path_of_mem {path : Path} {t : Text} {rs : List Record} {r : Record}
    (h : Record.parse path t = .ok rs) (hr : r ∈ rs) : r.path = path := by
  obtain ⟨b, -, hb⟩ := exists_block_of_mem h hr
  exact (ofBlock?_eq_some hb).1

/-- Each match key of a record has the number of the line that spells it. The line is its
written form, from the first character to the last. -/
theorem hasLine_key {path : Path} {t : Text} {rs : List Record} {r : Record}
    {k : Numbered MatchKey} (h : Record.parse path t = .ok rs) (hr : r ∈ rs)
    (hk : k ∈ r.keys) : t.HasLine k.line k.item.text ∧ k.item.WellFormed := by
  have hmem : k ∈ rs.flatMap Record.keys := List.mem_flatMap.2 ⟨r, hr, hk⟩
  rw [flatMap_keys_of_parse_eq_ok h, Layout.mem_keys_iff, Line.mem_ofTexts_lines_iff] at hmem
  obtain ⟨l, hl, hkey⟩ := hmem
  obtain ⟨htext, hwf⟩ := Line.ofText_eq_key_iff.1 hkey
  exact ⟨htext ▸ hl, hwf⟩

/-- Each property of a record has the number of the line that spells it. The line is its
written form with a space in front, the comment included. -/
theorem hasLine_property {path : Path} {t : Text} {rs : List Record} {r : Record}
    {p : Numbered Property} (h : Record.parse path t = .ok rs) (hr : r ∈ rs)
    (hp : p ∈ r.properties) :
    t.HasLine p.line (' ' :: p.item.text) ∧ p.item.WellFormed := by
  have hmem : p ∈ rs.flatMap Record.properties := List.mem_flatMap.2 ⟨r, hr, hp⟩
  rw [flatMap_properties_of_parse_eq_ok h, Layout.mem_properties_iff,
    Line.mem_ofTexts_lines_iff] at hmem
  obtain ⟨l, hl, hproperty⟩ := hmem
  obtain ⟨htext, hwf⟩ := Line.ofText_eq_property_iff.1 hproperty
  exact ⟨htext ▸ hl, hwf⟩

/-- Later match keys stand on later lines. This is so across the records of a file. -/
theorem pairwise_keys {path : Path} {t : Text} {rs : List Record}
    (h : Record.parse path t = .ok rs) :
    (rs.flatMap Record.keys).Pairwise fun k k' => k.line < k'.line := by
  rw [flatMap_keys_of_parse_eq_ok h]
  exact Layout.pairwise_filterMap_item (Line.pairwise_ofTexts 0 t.lines) Line.key?

/-- Later properties of a record stand on later lines. So each of them has a line of its
own. -/
theorem pairwise_properties {path : Path} {t : Text} {rs : List Record} {r : Record}
    (h : Record.parse path t = .ok rs) (hr : r ∈ rs) :
    r.properties.Pairwise fun p q => p.line < q.line := by
  obtain ⟨b, hb, hblock⟩ := exists_block_of_mem h hr
  have hsublist := (Layout.isInfix_of_mem_blocks hb).sublist
  rw [(ofBlock?_eq_some hblock).2.2.2]
  exact Layout.pairwise_filterMap_item ((Line.pairwise_ofTexts 0 t.lines).sublist hsublist)
    Line.property?

/-- No blank line comes between two properties of a record. The lines between them belong to
the block of the record, which has none. -/
theorem not_hasLine_nil_of_between {path : Path} {t : Text} {rs : List Record} {r : Record}
    {p q : Numbered Property} {n : Nat} (h : Record.parse path t = .ok rs) (hr : r ∈ rs)
    (hp : p ∈ r.properties) (hq : q ∈ r.properties) (hpn : p.line < n) (hnq : n < q.line) :
    ¬ t.HasLine n [] := by
  intro hblank
  obtain ⟨b, hb, hblock⟩ := exists_block_of_mem h hr
  rw [(ofBlock?_eq_some hblock).2.2.2, Layout.mem_properties_iff] at hp hq
  have hmem := Line.mem_ofTexts_lines_iff.2 ⟨[], hblank, Line.ofText_eq_blank_iff.2 rfl⟩
  have hwithin := Layout.mem_of_mem_blocks_of_between hb hp hq hmem hpn hnq
  exact Layout.ne_blank_of_mem_blocks hb _ hwithin rfl

/-- A structural error names a line of the text, also when it is the end of the file that is
at fault: then the file has a line. -/
theorem line_le_of_parse_eq_error {path : Path} {t : Text} {e : StructuralError}
    (h : Record.parse path t = .error e) : 1 ≤ e.line ∧ e.line ≤ t.lines.length := by
  rcases parse_cases path t with ⟨-, -, hparse⟩ | ⟨f, -, hend, hparse⟩
    | ⟨before, s, after, f, hlines, -, -, hparse⟩
  · rw [hparse] at h
    cases h
  · rw [hparse] at h
    cases h
    -- A file without lines may end.
    refine ⟨List.length_pos_iff.2 fun hnil => ?_, Nat.le_refl _⟩
    rw [hnil] at hend
    cases hend
  · rw [hparse] at h
    cases h
    refine ⟨Nat.le_add_left _ _, ?_⟩
    show before.length + 1 ≤ t.lines.length
    rw [hlines, List.length_append, List.length_cons]
    omega

end Record

end Hwdb
