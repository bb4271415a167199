import Hwdb.Proofs.Entries

/-!
# `Hwdb.Proofs.Rereading`: reading what has been read and written

The records of a file are well formed (`wellFormed_of_parse_eq_ok`), so the file that they
are written to can be read again, and `Record.reread` is what each of them has become by
then: a carriage return at the end of a comment has gone to the end of the line
(`parse_fileText_of_parse`).

A record is `Stable` when it has no such comment. The second reading and the second writing
change nothing exactly if all records are stable (`parse_fileText`), which not all are
(`parse_fileText_return`).
-/

set_option autoImplicit false

namespace Hwdb

/-- What does not depend on the numbers is the same with and without them. It takes the
numbers off what has been placed. -/
theorem map_mapIdx_of_forall {α β γ : Type} {f : Nat → α → β} {g : β → γ} {h : α → γ}
    (hfg : ∀ i a, g (f i a) = h a) (as : List α) : (as.mapIdx f).map g = as.map h :=
  List.ext_getElem (by simp) (by simp [hfg])

namespace Record

/-- The match keys and the properties of a record, without their places. -/
def contents (r : Record) : List MatchKey × List Property :=
  (r.keys.map Numbered.item, r.properties.map Numbered.item)

/-- The record as it is read again after it has been written. -/
def reread (r : Record) : Record :=
  { r with properties := r.properties.map fun p => ⟨p.line, p.item.reread⟩ }

/-- No comment of the record ends with a carriage return. -/
def Stable (r : Record) : Prop :=
  ∀ p ∈ r.properties, ∀ s ∈ p.item.comment, s.getLast? ≠ some '\r'

/-! ### What writing depends on -/

/-- A record is written without its places. So two records with the same contents have the
same lines. -/
theorem lines_eq_of_contents (r : Record) :
    r.lines = r.contents.1.map MatchKey.text
      ++ r.contents.2.map fun p => ' ' :: p.text := by
  rw [contents, List.map_map, List.map_map]
  rfl

/-- Where a record is placed changes nothing about its contents. Its path and its numbers
are no part of them. -/
theorem contents_place (path : Path) (start : Nat) (r : Record) :
    (r.place path start).contents = r.contents := by
  rw [contents, place, contents, Prod.mk.injEq]
  constructor
  · refine map_mapIdx_of_forall ?_ r.keys
    exact fun _ _ => rfl
  · refine map_mapIdx_of_forall ?_ r.properties
    exact fun _ _ => rfl

/-- Records with the same contents are written as the same text. Neither paths nor numbers
are written. -/
theorem fileLines_congr {rs qs : List Record} (h : rs.map contents = qs.map contents) :
    fileLines rs = fileLines qs := by
  have hlines : ∀ ps : List Record, ps.map Record.lines
      = (ps.map contents).map fun c =>
          c.1.map MatchKey.text ++ c.2.map fun p => ' ' :: p.text := by
    intro ps
    rw [List.map_map]
    exact List.map_congr_left fun r _ => r.lines_eq_of_contents
  rw [fileLines, fileLines, hlines, hlines, h]

/-- The text of a file tells its lines, those with a carriage return included: none of the
lines has a line feed, so the text can be cut again. -/
theorem fileLines_eq_of_fileText_eq {rs qs : List Record}
    (hrs : ∀ r ∈ rs, ∀ l ∈ r.lines, '\n' ∉ l) (hqs : ∀ r ∈ qs, ∀ l ∈ r.lines, '\n' ∉ l)
    (h : fileText rs = fileText qs) : fileLines rs = fileLines qs := by
  rw [fileText_eq_flatMap_fileLines, fileText_eq_flatMap_fileLines] at h
  exact Text.eq_of_flatMap_lineFeed_eq (lineFeed_not_mem_fileLines hrs)
    (lineFeed_not_mem_fileLines hqs) h

/-! ### The second reading -/

/-- What is left of a well-formed record when it is read again is well formed: only comments
change. -/
theorem WellFormed.reread {r : Record} (h : r.WellFormed) : r.reread.WellFormed := by
  refine ⟨h.keys_ne_nil, ?_, h.wellFormed_key, ?_⟩
  · exact fun hnil => h.properties_ne_nil (List.map_eq_nil_iff.1 hnil)
  · intro p hp
    obtain ⟨q, hq, rfl⟩ := List.mem_map.1 hp
    exact (h.wellFormed_property q hq).reread

/-- The lines of a record lose what its comments lose. Match keys, tags and values have no
carriage return to lose. -/
theorem WellFormed.map_dropReturn_lines {r : Record} (h : r.WellFormed) :
    r.lines.map Text.dropReturn = r.reread.lines := by
  have hkeys : r.keyLines.map Text.dropReturn = r.reread.keyLines := by
    rw [keyLines, keyLines, List.map_map]
    exact List.map_congr_left fun k hk => Line.dropReturn_text_key (h.wellFormed_key k hk)
  have hproperties : r.propertyLines.map Text.dropReturn = r.reread.propertyLines := by
    rw [propertyLines, propertyLines, Record.reread, List.map_map, List.map_map]
    exact List.map_congr_left fun p hp =>
      Property.dropReturn_line (h.wellFormed_property p hp)
  rw [lines, lines, List.map_append, hkeys, hproperties]

/-- The lines of a file lose what its comments lose, and the empty lines between the records
stay. -/
theorem map_dropReturn_fileLines {rs : List Record} (h : ∀ r ∈ rs, r.WellFormed) :
    (fileLines rs).map Text.dropReturn = fileLines (rs.map Record.reread) := by
  rw [fileLines, map_intercalate (f := List.map Text.dropReturn) rfl
    (fun _ _ => List.map_append), List.map_map, fileLines, List.map_map]
  exact congrArg _ (List.map_congr_left fun r hr => (h r hr).map_dropReturn_lines)

/-- The records of a file are well formed: each has a match key and a property, and all of
them stood in lines. -/
theorem wellFormed_of_parse_eq_ok {path : Path} {t : Text} {rs : List Record}
    (h : Record.parse path t = .ok rs) : ∀ r ∈ rs, r.WellFormed := by
  intro r hr
  refine ⟨?_, ?_, fun k hk => (hasLine_key h hr hk).2, fun p hp => (hasLine_property h hr hp).2⟩
  · obtain ⟨b, -, hb⟩ := exists_block_of_mem h hr
    exact (ofBlock?_eq_some hb).2.2.1
  · -- Every block of the file may end, and with match keys only it may not.
    obtain ⟨ps, hps⟩ := exists_divides_of_parse_eq_ok h
    rw [parse_of_divides hps, Except.ok.injEq] at h
    rw [← h] at hr
    obtain ⟨p, hp, hblock⟩ := List.mem_filterMap.1 hr
    obtain ⟨-, hkeys, hne, hproperties⟩ := ofBlock?_eq_some hblock
    obtain ⟨-, -, hend⟩ := Paragraph.orderly_lines (hps.valid p hp)
    intro hnil
    rw [Layout.endFault?, if_pos ⟨hkeys ▸ hne, hproperties ▸ hnil⟩] at hend
    cases hend

/-- No line that a record of a file is written on has a line feed. Its lines were lines of a
file, which have none. -/
theorem lineFeed_not_mem_of_parse_eq_ok {path : Path} {t : Text} {rs : List Record}
    (h : Record.parse path t = .ok rs) : ∀ r ∈ rs, ∀ l ∈ r.lines, '\n' ∉ l := by
  intro r hr l hl
  have hentries : l ∈ Line.entries t.lines := by
    rw [← flatMap_lines_of_parse_eq_ok h]
    exact List.mem_flatMap.2 ⟨r, hr, hl⟩
  exact Text.lineFeed_not_mem_of_mem_lines (List.mem_of_mem_filter hentries)

/-- The file that the records of a file are written to is read as what they have become. So
writing a file and reading it never fails. -/
theorem parse_fileText_of_parse {path : Path} {t : Text} {rs : List Record}
    (h : Record.parse path t = .ok rs) (path' : Path) :
    ∃ rs', Record.parse path' (fileText rs) = .ok rs' ∧
      rs'.map contents = (rs.map Record.reread).map contents := by
  have hwf := wellFormed_of_parse_eq_ok h
  have hlines : (fileText rs).lines = fileLines (rs.map Record.reread) := by
    rw [lines_fileText (lineFeed_not_mem_of_parse_eq_ok h), map_dropReturn_fileLines hwf]
  refine ⟨_, parse_of_lines_eq (List.forall_mem_map.2 fun r hr => (hwf r hr).reread) hlines, ?_⟩
  exact map_mapIdx_of_forall (fun _ r => contents_place path' _ r) _

/-! ### Stable records -/

/-- A record is the same when it is read again exactly if it is stable. There is nothing
that could change but comments. -/
theorem contents_reread_eq_iff {r : Record} :
    r.reread.contents = r.contents ↔ r.Stable := by
  have hkeys : r.reread.keys.map Numbered.item = r.keys.map Numbered.item := rfl
  rw [contents, contents, Prod.mk.injEq, and_iff_right hkeys, Record.reread, List.map_map,
    List.map_inj_left]
  exact forall₂_congr fun p _ => Property.reread_eq_self_iff

/-- Some records are the same when they are read again exactly if all of them are stable.
The records are compared one by one. -/
theorem map_contents_reread_eq_iff {rs : List Record} :
    (rs.map Record.reread).map contents = rs.map contents ↔ ∀ r ∈ rs, r.Stable := by
  rw [List.map_map, List.map_inj_left]
  exact forall₂_congr fun r _ => contents_reread_eq_iff

/-- Records that are not stable are written differently after they have been read again. The
lines are compared one by one, so a record cannot make up for another one. -/
theorem stable_of_fileLines_reread_eq {rs : List Record} (hwf : ∀ r ∈ rs, r.WellFormed)
    (h : fileLines (rs.map Record.reread) = fileLines rs) : ∀ r ∈ rs, r.Stable := by
  have hlines : ∀ r ∈ rs, ∀ l ∈ r.lines, Text.dropReturn l = l := by
    rw [← map_dropReturn_fileLines hwf] at h
    have hmap := List.map_inj_left.1 (h.trans (List.map_id _).symm)
    exact List.forall_mem_map.1 ((forall_mem_intercalate_iff (by decide)).1 hmap)
  intro r hr p hp
  have hproperty := (hwf r hr).wellFormed_property p hp
  have hline := hlines r hr (' ' :: p.item.text)
    (List.mem_append_right _ (List.mem_map.2 ⟨p, hp, rfl⟩))
  -- The line of a property spells no other one.
  rw [Property.dropReturn_line hproperty] at hline
  have hspells := Line.ofText_eq_property_iff.2 ⟨hline.symm, hproperty.reread⟩
  rw [Line.ofText_eq_property_iff.2 ⟨rfl, hproperty⟩, Line.property.injEq] at hspells
  exact Property.reread_eq_self_iff.1 hspells.symm

/-- A file that was read is written as a text that can be read again. This gives the same
match keys and properties, but a carriage return at the end of a comment is lost. So the
contents stay the same exactly if all records are stable, and so does the text when they are
written once more. -/
theorem parse_fileText {path : Path} {t : Text} {rs : List Record}
    (h : Record.parse path t = .ok rs) (path' : Path) :
    ∃ rs', Record.parse path' (fileText rs) = .ok rs' ∧
      rs'.map contents = (rs.map Record.reread).map contents ∧
      (rs'.map contents = rs.map contents ↔ ∀ r ∈ rs, r.Stable) ∧
      (fileText rs' = fileText rs ↔ ∀ r ∈ rs, r.Stable) := by
  obtain ⟨rs', hrs', hcontents⟩ := parse_fileText_of_parse h path'
  refine ⟨rs', hrs', hcontents, ?_, ?_⟩
  · rw [hcontents, map_contents_reread_eq_iff]
  · constructor
    · intro htext
      -- From the text back to the lines, which are told apart by their line feeds.
      have hlines := fileLines_eq_of_fileText_eq (lineFeed_not_mem_of_parse_eq_ok hrs')
        (lineFeed_not_mem_of_parse_eq_ok h) htext
      rw [fileLines_congr hcontents] at hlines
      exact stable_of_fileLines_reread_eq (wellFormed_of_parse_eq_ok h) hlines
    · intro hstable
      have hsame := hcontents.trans (map_contents_reread_eq_iff.2 hstable)
      rw [fileText_eq_flatMap_fileLines, fileText_eq_flatMap_fileLines, fileLines_congr hsame]

/-- A comment that stays, and one that ends with two carriage returns, of which the reading
of the line itself takes the second and the second reading the first. -/
theorem parse_fileText_commented :
    ∃ rs', Record.parse ⟨[]⟩ "libinput:name:a\n A=1# x\n B=2#y\r\n".toList = .ok rs' ∧
      rs'.map contents
        = [([⟨.libinput, .name, ['a']⟩],
            [⟨['A'], ['1'], some [' ', 'x']⟩, ⟨['B'], ['2'], some ['y']⟩])] := by
  have h : Record.parse ⟨[]⟩ "libinput:name:a\n A=1# x\n B=2#y\r\r\n".toList
      = .ok [⟨⟨[]⟩, 1, [⟨1, ⟨.libinput, .name, ['a']⟩⟩],
          [⟨2, ⟨['A'], ['1'], some [' ', 'x']⟩⟩, ⟨3, ⟨['B'], ['2'], some ['y', '\r']⟩⟩]⟩] := by
    decide +kernel
  obtain ⟨rs', hrs', hcontents, -, -⟩ := parse_fileText h ⟨[]⟩
  refine ⟨rs', hrs', hcontents.trans ?_⟩
  decide

/-- A carriage return at the end of a file is taken into the comment before it. It does not
come back when the file is written and read again. -/
theorem parse_fileText_return :
    ∃ rs rs', Record.parse ⟨[]⟩ "libinput:name:a\n A=1#x\r".toList = .ok rs ∧
      Record.parse ⟨[]⟩ (fileText rs) = .ok rs' ∧
      rs'.map contents ≠ rs.map contents ∧ fileText rs' ≠ fileText rs := by
  let rs : Text → List Record := fun comment =>
    [⟨⟨[]⟩, 1, [⟨1, ⟨.libinput, .name, ['a']⟩⟩], [⟨2, ⟨['A'], ['1'], some comment⟩⟩]⟩]
  refine ⟨rs ['x', '\r'], rs ['x'], ?_, ?_, ?_, ?_⟩ <;> decide +kernel

end Record

end Hwdb
