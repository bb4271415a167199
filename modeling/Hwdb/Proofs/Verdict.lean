import Hwdb.Proofs.Blocks
import Hwdb.Proofs.Findings
import Hwdb.Proofs.Paragraph
import Hwdb.Proofs.Places
import Hwdb.Proofs.Run

/-!
# `Hwdb.Proofs.Verdict`: which texts pass a check

`Clean` says of some texts, without a word about records, that there is nothing wrong with
them: their lines are in the grammar, no match key stands twice, no tag stands twice
without a blank line between, and the catalogue admits every property.
`exitCode_finish_ofTexts` says that a run gives the exit code zero to exactly these texts.

The rules for match keys and for properties speak about records, and `Clean` about lines.
`Record.map_key_declarations`, `Record.forall_nodup_tags_iff` and
`Record.forall_issue?_iff` take each of them from the ones to the others.
-/

set_option autoImplicit false

namespace Hwdb

/-! ### Texts with nothing wrong -/

/-- The lines of a text that are match keys. -/
def Text.keyLines (t : Text) : List Text :=
  t.lines.filter fun l => (Line.ofText l).kind = .key

/-- There is nothing wrong with some files. -/
structure Clean (sources : List (Path × Text)) : Prop where
  /-- The lines of each file are in the grammar. -/
  mem_looseFile : ∀ s ∈ sources, s.2.kinds ∈ Grammar.looseFile
  /-- No match key stands twice, in whatever files. -/
  nodup_keyLines : (sources.flatMap fun s => s.2.keyLines).Nodup
  /-- Between two properties with the same tag there is a blank line. -/
  tag_ne : ∀ s ∈ sources, ∀ before p between q after,
    s.2.lines.map Line.ofText
      = before ++ .property p :: between ++ .property q :: after →
    .blank ∉ between → p.tag ≠ q.tag
  /-- The catalogue admits every property. -/
  admits : ∀ s ∈ sources, ∀ p, .property p ∈ s.2.lines.map Line.ofText →
    Setting.Admits p.tag p.trimmedValue

/-! ### Match keys -/

/-- The text of a match key is its line. So the keys of a file can be found without reading
it. -/
theorem Line.map_text_keys (ts : List Text) :
    ((ts.map ofText).filterMap key?).map MatchKey.text
      = ts.filter fun l => (ofText l).kind = .key := by
  induction ts with
  | nil => rfl
  | cons t ts ih =>
      rw [List.map_cons, List.filterMap_cons, List.filter_cons]
      cases hline : ofText t with
      | key k =>
          obtain ⟨rfl, -⟩ := ofText_eq_key_iff.1 hline
          show k.text :: ((ts.map ofText).filterMap key?).map MatchKey.text
            = k.text :: ts.filter _
          rw [ih]
      | _ => exact ih

namespace Record

/-- The records of a file declare the lines that are match keys. They come in the order of
the lines. -/
theorem map_key_declarations {path : Path} {t : Text} {rs : List Record}
    (h : Record.parse path t = .ok rs) :
    (Hwdb.declarations rs).map Declaration.key = t.keyLines := by
  rw [← map_text_declaredKeys, declaredKeys, flatMap_keys_of_parse_eq_ok h,
    Layout.map_item_keys, Line.map_item_ofTexts, Line.map_text_keys]
  rfl

end Record

/-! ### Tags -/

/-- Two elements that stand one after the other in a list cut it into three parts. It makes
a statement about two lines one about the lines between them. -/
theorem exists_append_of_pair_sublist {α : Type} {a b : α} {l : List α}
    (h : List.Sublist [a, b] l) : ∃ u v w, l = u ++ a :: v ++ b :: w := by
  obtain ⟨l₁, l₂, rfl, ha, hb⟩ := List.cons_sublist_iff.1 h
  obtain ⟨u, v₁, rfl⟩ := List.append_of_mem ha
  obtain ⟨v₂, w, rfl⟩ := List.append_of_mem (List.singleton_sublist.1 hb)
  exact ⟨u, v₁ ++ v₂, w, by simp⟩

namespace Record

/-- Two properties of some lines have the same tag only if two lines have. A property stands
on a line of its own, so there is nothing else to compare. -/
theorem nodup_tags_iff {b : List (Numbered Line)} :
    ((Layout.properties b).map fun p => p.item.tag).Nodup
      ↔ (b.map Numbered.item).Pairwise fun l m =>
        ∀ p q, l = .property p → m = .property q → p.tag ≠ q.tag := by
  have htags : ((Layout.properties b).map fun p => p.item.tag)
      = ((b.map Numbered.item).filterMap Line.property?).map Property.tag := by
    rw [← Layout.map_item_properties, List.map_map]
    rfl
  rw [htags, List.Nodup, List.pairwise_map, List.pairwise_filterMap]
  refine List.Pairwise.iff fun l m => ?_
  simp only [Line.property?_eq_some_iff]
  exact ⟨fun h p q hp hq => h p hp q hq, fun h p hp q hq => h p q hp hq⟩

/-- Each record of a file gets its properties from a block, and the other blocks have none.
The hypothesis `hnil` says that those blocks do not matter. -/
theorem forall_properties_iff {path : Path} {t : Text} {rs : List Record}
    (h : Record.parse path t = .ok rs) {motive : List (Numbered Property) → Prop}
    (hnil : motive []) :
    (∀ r ∈ rs, motive r.properties)
      ↔ ∀ b ∈ (Layout.ofTexts t.lines).blocks, motive (Layout.properties b) := by
  obtain ⟨haccepts, -, rfl⟩ := parse_eq_ok_iff.1 h
  constructor
  · intro hrecords b hb
    cases hkeys : Layout.keys b with
    | nil =>
        -- A block without a record has no properties, and `hnil` covers it.
        have horderly := Layout.orderly_of_mem_blocks haccepts b hb
        rw [Layout.properties_eq_nil_of_hasBody_eq_false (horderly.hasBody_eq_false hkeys)]
        exact hnil
    | cons k ks =>
        have hblock : ofBlock? path b = some _ := ofBlock?_of_keys_eq_cons hkeys
        exact hrecords _ (List.mem_filterMap.2 ⟨b, hb, hblock⟩)
  · intro hblocks r hr
    obtain ⟨b, hb, hblock⟩ := List.mem_filterMap.1 hr
    rw [(ofBlock?_eq_some hblock).2.2.2]
    exact hblocks b hb

/-- No record of a file has a tag twice exactly if there is a blank line between any two
properties with the same tag. -/
theorem forall_nodup_tags_iff {path : Path} {t : Text} {rs : List Record}
    (h : Record.parse path t = .ok rs) :
    (∀ r ∈ rs, (r.properties.map fun p => p.item.tag).Nodup)
      ↔ ∀ before p between q after,
        t.lines.map Line.ofText
          = before ++ .property p :: between ++ .property q :: after →
        .blank ∉ between → p.tag ≠ q.tag := by
  rw [forall_properties_iff h (motive := fun ps => (ps.map fun p => p.item.tag).Nodup)
    List.nodup_nil]
  simp only [nodup_tags_iff]
  rw [← Line.map_item_ofTexts 0 t.lines]
  constructor
  · intro hblocks before p between q after hlines hblank
    -- The two properties and the lines between them lie in one block.
    have hrun : .property p :: between ++ [.property q]
        <:+: (Line.ofTexts 0 t.lines).map Numbered.item := by
      refine ⟨before, after, ?_⟩
      rw [hlines]
      simp
    obtain ⟨b, hb, hwithin⟩ :=
      Layout.exists_mem_blocks_of_items hrun (by simpa using hblank)
    have hpair : List.Sublist [Line.property p, .property q]
        (.property p :: between ++ [.property q]) :=
      (List.sublist_append_right between [.property q]).cons_cons _
    exact List.pairwise_iff_forall_sublist.1 (hblocks b hb)
      (hpair.trans hwithin.sublist) p q rfl rfl
  · intro hlines b hb
    rw [List.pairwise_iff_forall_sublist]
    intro l m hpair p q hl hm
    subst hl hm
    obtain ⟨u, v, w, hitems⟩ := exists_append_of_pair_sublist hpair
    obtain ⟨before, after, hfile⟩ := (Layout.isInfix_of_mem_blocks hb).map Numbered.item
    refine hlines (before ++ u) p v q (w ++ after) ?_ fun hblank => ?_
    · rw [← hfile, hitems]
      simp
    · have hmem : Line.blank ∈ b.map Numbered.item := by
        rw [hitems]
        simp [hblank]
      obtain ⟨l, hl, hitem⟩ := List.mem_map.1 hmem
      exact Layout.ne_blank_of_mem_blocks hb l hl hitem

/-! ### The catalogue -/

/-- No property of a file has an issue of its own exactly if the catalogue admits every
line that is a property. -/
theorem forall_issue?_iff {path : Path} {t : Text} {rs : List Record}
    (h : Record.parse path t = .ok rs) :
    (∀ r ∈ rs, ∀ p ∈ r.properties, p.item.issue? ⟨r.path, p.line⟩ = none)
      ↔ ∀ p, .property p ∈ t.lines.map Line.ofText →
        Setting.Admits p.tag p.trimmedValue := by
  have hmem : ∀ p, .property p ∈ t.lines.map Line.ofText
      ↔ ∃ r ∈ rs, ∃ q ∈ r.properties, q.item = p := by
    intro p
    have hitems : (rs.flatMap Record.properties).map Numbered.item
        = (t.lines.map Line.ofText).filterMap Line.property? := by
      rw [flatMap_properties_of_parse_eq_ok h, Layout.map_item_properties,
        Line.map_item_ofTexts]
    have hp : p ∈ (rs.flatMap Record.properties).map Numbered.item
        ↔ ∃ r ∈ rs, ∃ q ∈ r.properties, q.item = p := by
      simp only [List.mem_map, List.mem_flatMap]
      exact ⟨fun ⟨q, ⟨r, hr, hq⟩, hp⟩ => ⟨r, hr, q, hq, hp⟩,
        fun ⟨r, hr, q, hq, hp⟩ => ⟨q, ⟨r, hr, hq⟩, hp⟩⟩
    rw [← hp, hitems, List.mem_filterMap]
    simp only [Line.property?_eq_some_iff, exists_eq_right]
  -- The catalogue is only asked about properties that could stand in a line.
  have hwf : ∀ p, .property p ∈ t.lines.map Line.ofText → p.WellFormed := by
    intro p hp
    obtain ⟨l, -, hl⟩ := List.mem_map.1 hp
    exact (Line.ofText_eq_property_iff.1 hl).2
  constructor
  · intro hissues p hp
    obtain ⟨r, hr, q, hq, rfl⟩ := (hmem p).1 hp
    exact (Property.issue?_eq_none_iff (hwf q.item hp)).1 (hissues r hr q hq)
  · intro hadmits r hr p hp
    have hline := (hmem p.item).2 ⟨r, hr, p, hp, rfl⟩
    exact (Property.issue?_eq_none_iff (hwf p.item hline)).2 (hadmits p.item hline)

end Record

/-! ### The verdict -/

/-- The records of files that can be read declare the match keys of all the files. A key
that two files declare comes twice in this list. -/
theorem Run.map_key_declarations_ofTexts {sources : List (Path × Text)}
    (hread : ∀ s ∈ sources, ∃ rs, Record.parse s.1 s.2 = .ok rs) :
    (declarations (Run.ofTexts sources).records).map Declaration.key
      = sources.flatMap fun s => s.2.keyLines := by
  rw [declarations, Run.records_ofTexts, List.flatMap_assoc, List.map_flatMap]
  refine List.flatMap_congr fun s hs => ?_
  obtain ⟨rs, hrs⟩ := hread s hs
  rw [Reading.ofText_of_parse_eq_ok hrs]
  exact Record.map_key_declarations hrs

/-- A run gives the exit code zero to files with nothing wrong, and one to all others. -/
theorem exitCode_finish_ofTexts (sources : List (Path × Text)) :
    ((Run.ofTexts sources).finish.exitCode = 0 ↔ Clean sources) ∧
      ((Run.ofTexts sources).finish.exitCode = 1 ↔ ¬ Clean sources) := by
  have hzero : (Run.ofTexts sources).finish.exitCode = 0 ↔ Clean sources := by
    -- Which files can be read is said by the grammar, in its loose form.
    have hfile : ∀ s : Path × Text, s.2.kinds ∈ Grammar.looseFile
        ↔ ∃ rs, Record.parse s.1 s.2 = .ok rs := by
      intro s
      rw [Grammar.looseFile_eq]
      exact Record.exists_parse_eq_ok_iff.symm
    rw [Run.exitCode_finish_ofTexts_eq_zero_iff, Findings.issues_eq_nil_iff]
    constructor
    · intro ⟨hread, hkeys, hrecords⟩
      rw [Run.map_key_declarations_ofTexts hread] at hkeys
      -- What holds of the records of the run holds of those of each file.
      have hsource : ∀ s ∈ sources, ∃ rs, Record.parse s.1 s.2 = .ok rs ∧
          ∀ r ∈ rs, r ∈ (Run.ofTexts sources).records := by
        intro s hs
        obtain ⟨rs, hrs⟩ := hread s hs
        exact ⟨rs, hrs, fun r hr => Run.mem_records_ofTexts.2 ⟨s, hs, rs, hrs, hr⟩⟩
      refine ⟨fun s hs => (hfile s).2 (hread s hs), hkeys, fun s hs => ?_, fun s hs => ?_⟩
      · obtain ⟨rs, hrs, hin⟩ := hsource s hs
        exact (Record.forall_nodup_tags_iff hrs).1 fun r hr => (hrecords r (hin r hr)).1
      · obtain ⟨rs, hrs, hin⟩ := hsource s hs
        exact (Record.forall_issue?_iff hrs).1 fun r hr => (hrecords r (hin r hr)).2
    · intro hclean
      have hread : ∀ s ∈ sources, ∃ rs, Record.parse s.1 s.2 = .ok rs := fun s hs =>
        (hfile s).1 (hclean.mem_looseFile s hs)
      rw [Run.map_key_declarations_ofTexts hread]
      refine ⟨hread, hclean.nodup_keyLines, fun r hr => ?_⟩
      obtain ⟨s, hs, rs, hrs, hr⟩ := Run.mem_records_ofTexts.1 hr
      exact ⟨(Record.forall_nodup_tags_iff hrs).2 (hclean.tag_ne s hs) r hr,
        (Record.forall_issue?_iff hrs).2 (hclean.admits s hs) r hr⟩
  rw [Report.exitCode_eq_one_iff, hzero]
  exact ⟨Iff.rfl, Iff.rfl⟩

end Hwdb
