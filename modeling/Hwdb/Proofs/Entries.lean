import Hwdb.Proofs.RoundTrip
import Hwdb.Proofs.Places

/-!
# `Hwdb.Proofs.Entries`: what writing the records of a file gives back

The entries of a file are its match keys and its properties, as they are written there.
Blank lines cut the lines of a file into blocks, and `Text.stripped` is the text that the
entries of these blocks make, with one empty line between the entries of two blocks.

An orderly block has its match keys before its properties, so its record is written as its
entries (`Layout.Orderly.entries_eq`, `Record.map_lines_ofBlock?`). From this
`Record.fileText_eq_stripped` follows: reading a file and writing its records gives the
stripped text, and nothing but comments and blank lines is stripped.
-/

set_option autoImplicit false

namespace Hwdb

open Layout (Orderly fault?)

/-! ### Entries -/

/-- Something else on the same line. -/
def Numbered.map {α β : Type} (f : α → β) (x : Numbered α) : Numbered β :=
  ⟨x.line, f x.item⟩

namespace Line

/-- Whether a line is a match key or a property. -/
def isEntry : Line → Bool
  | key _ | property _ => true
  | _ => false

/-- The written form of a match key or a property. -/
def entryText? : Line → Option Text
  | key k => some k.text
  | property p => some (' ' :: p.text)
  | _ => none

/-- Those of some lines that are match keys or properties. -/
def entries (ts : List Text) : List Text :=
  ts.filter fun t => (ofText t).isEntry

/-- A match key and a property are written as they stood in their lines, and no other line
is written at all. -/
theorem entryText?_ofText (t : Text) :
    (ofText t).entryText? = if (ofText t).isEntry then some t else none := by
  cases hline : ofText t with
  | key k =>
      rw [(ofText_eq_key_iff.1 hline).1]
      rfl
  | property p =>
      rw [(ofText_eq_property_iff.1 hline).1]
      rfl
  | _ => rfl

/-- What is written of some lines are those of them that are entries. So the written form of
a file can be found from its lines, without what they were read as. -/
theorem filterMap_entryText? (ts : List Text) :
    (ts.map ofText).filterMap entryText? = entries ts := by
  rw [List.filterMap_map, entries, ← List.filterMap_eq_filter]
  refine congrArg (List.filterMap · ts) (funext fun t => ?_)
  rw [Function.comp_apply, entryText?_ofText]
  rfl

end Line

namespace Text

/-- The entries of each block of a text that has any. Empty lines are between the blocks. -/
def entryBlocks (t : Text) : List (List Text) :=
  ((t.lines.splitOn []).map Line.entries).filter (· ≠ [])

/-- The entries of a text, each with a line feed, and an empty line between the entries of
two blocks. -/
def stripped (t : Text) : Text :=
  List.intercalate ['\n'] (t.entryBlocks.map fun ls => ls.flatMap (· ++ ['\n']))

end Text

namespace Layout

/-- The entries of some lines. -/
def entries (b : List (Numbered Line)) : List Text :=
  b.filterMap fun l => l.item.entryText?

/-- Those of some lines that are match keys or properties, with their numbers. -/
def entryLines (b : List (Numbered Line)) : List (Numbered Line) :=
  b.filter fun l => l.item.isEntry

/-- The entries of a block, from its numbered entry lines. It joins the two ways to pick
entries out of a block, with their numbers and without. -/
theorem entries_eq_filterMap_entryLines (b : List (Numbered Line)) :
    entries b = (entryLines b).filterMap fun l => l.item.entryText? := by
  rw [entryLines, List.filterMap_filter]
  refine List.filterMap_congr fun l _ => ?_
  cases l.item <;> rfl

/-- The entries of a block can be picked out without its line numbers. Only the lines
themselves decide what is written. -/
theorem entries_eq_filterMap_items (b : List (Numbered Line)) :
    entries b = (b.map Numbered.item).filterMap Line.entryText? := by
  rw [List.filterMap_map]
  rfl

/-- In an orderly block the match keys come before the properties, so a record, which keeps
the two apart, has not lost their order. -/
theorem Orderly.entryLines_eq {b : List (Numbered Line)} (h : Orderly b) :
    entryLines b
      = (keys b).map (Numbered.map .key) ++ (properties b).map (Numbered.map .property) := by
  induction h with
  | nil => rfl
  | @concat b l _ _ hfault ih =>
      obtain ⟨n, l⟩ := l
      have hlast : entryLines (b ++ [⟨n, l⟩]) = entryLines b ++ entryLines [⟨n, l⟩] :=
        List.filter_append _ _
      rw [hlast, keys_concat, properties_concat, ih]
      cases l with
      | key k =>
          -- Were there a property before it, the match key would be a fault.
          have hbody : hasBody b = false := by
            by_contra hbody
            have hsome : fault? b (.key k) = some (.missingSeparator k.text) :=
              if_pos (Bool.eq_true_of_not_eq_false hbody)
            rw [hsome] at hfault
            cases hfault
          rw [properties_eq_nil_of_hasBody_eq_false hbody]
          simp [entryLines, Line.isEntry, Line.key?, Line.property?, Numbered.map]
      | property p =>
          simp [entryLines, Line.isEntry, Line.key?, Line.property?, Numbered.map]
      | _ => simp [entryLines, Line.isEntry, Line.key?, Line.property?]

/-- So its entries are the texts of its match keys and then those of its properties. That is
the order in which a record is written. -/
theorem Orderly.entries_eq {b : List (Numbered Line)} (h : Orderly b) :
    entries b = (keys b).map (fun k => k.item.text)
      ++ (properties b).map fun p => ' ' :: p.item.text := by
  have hkeys : ((keys b).map (Numbered.map Line.key)).filterMap (fun l => l.item.entryText?)
      = (keys b).map fun k => k.item.text := by
    rw [List.filterMap_map, ← List.filterMap_eq_map]
    rfl
  have hproperties : ((properties b).map (Numbered.map Line.property)).filterMap
      (fun l => l.item.entryText?) = (properties b).map fun p => ' ' :: p.item.text := by
    rw [List.filterMap_map, ← List.filterMap_eq_map]
    rfl
  rw [entries_eq_filterMap_entryLines, h.entryLines_eq, List.filterMap_append, hkeys,
    hproperties]

/-! ### Blocks -/

/-- The blocks of some lines are the runs between the empty ones. The first run goes on with
the block in hand. -/
theorem items_blocks_addAll (y : Layout) (count : Nat) (ts : List Text) :
    (y.addAll (Line.ofTexts count ts)).blocks.map (List.map Numbered.item)
      = y.ended.map (List.map Numbered.item)
        ++ ((ts.splitOn []).map (List.map Line.ofText)).modifyHead
          (y.current.map Numbered.item ++ ·) := by
  induction ts generalizing y count with
  | nil => simp [Line.ofTexts, blocks]
  | cons t ts ih =>
      rw [Line.ofTexts, addAll_cons, ih, List.splitOn_cons_eq_if_modifyHead]
      by_cases ht : t = []
      · -- An empty line ends the block in hand, and the next run begins a new one.
        obtain ⟨p, ps, hps⟩ := List.exists_cons_of_ne_nil (List.splitOn_ne_nil [] ts)
        rw [add_blank (Line.ofText_eq_blank_iff.2 ht), if_pos (beq_iff_eq.2 ht), hps]
        simp
      · obtain ⟨p, ps, hps⟩ := List.exists_cons_of_ne_nil (List.splitOn_ne_nil [] ts)
        rw [add_of_ne (Line.ofText_eq_blank_iff.not.2 ht), if_neg (beq_iff_eq.not.2 ht), hps]
        simp

/-- The entries of the blocks of a file are those of its runs of lines, as the file is cut
at its empty lines. -/
theorem map_entries_blocks (ts : List Text) :
    (ofTexts ts).blocks.map entries = (ts.splitOn []).map Line.entries := by
  have hitems := items_blocks_addAll empty 0 ts
  obtain ⟨p, ps, hps⟩ := List.exists_cons_of_ne_nil (List.splitOn_ne_nil [] ts)
  rw [hps] at hitems ⊢
  have hentries := congrArg (List.map (List.filterMap Line.entryText?)) hitems
  rw [List.map_map] at hentries
  -- The runs of a file are never none, and so the first of them may take the empty block in
  -- hand.
  calc (ofTexts ts).blocks.map entries
      = ((empty.addAll (Line.ofTexts 0 ts)).blocks.map
          (List.filterMap Line.entryText? ∘ List.map Numbered.item)) :=
        List.map_congr_left fun b _ => entries_eq_filterMap_items b
    _ = (p :: ps).map Line.entries := by
        rw [hentries]
        simp [empty, ← Line.filterMap_entryText?]

/-- Lines that may stand where they stand are entries, comments or blank: the two kinds of
bad lines always have a fault. -/
theorem entry_or_comment_of_accepts {y : Layout} {count : Nat} {ts : List Text}
    (h : y.Accepts (Line.ofTexts count ts)) :
    ∀ t ∈ ts, (Line.ofText t).isEntry = true ∨ Line.ofText t = .blank
      ∨ Line.ofText t = .comment ∨ Line.ofText t = .indentedComment := by
  induction ts generalizing y count with
  | nil => simp
  | cons t ts ih =>
      refine List.forall_mem_cons.2 ⟨?_, ih h.2⟩
      have hfault := h.1
      -- The two kinds that are left over have a fault wherever they stand.
      cases hline : Line.ofText t with
      | malformedProperty s =>
          rw [hline, fault?] at hfault
          split at hfault <;> cases hfault
      | unknown s =>
          rw [hline] at hfault
          cases hfault
      | _ => simp [Line.isEntry]

end Layout

/-! ### Files -/

namespace Record

/-- The record of an orderly block is written as the entries of the block, and a block
without a record has none. -/
theorem map_lines_ofBlock? {path : Path} {b : List (Numbered Line)} (h : Orderly b) :
    (ofBlock? path b).map Record.lines
      = if Layout.entries b ≠ [] then some (Layout.entries b) else none := by
  rw [h.entries_eq]
  cases hkeys : Layout.keys b with
  | nil =>
      -- Comments alone: there is neither a record nor an entry.
      have hproperties := Layout.properties_eq_nil_of_hasBody_eq_false
        (h.hasBody_eq_false hkeys)
      rw [ofBlock?_of_keys_eq_nil hkeys, hproperties]
      rfl
  | cons k ks =>
      rw [ofBlock?_of_keys_eq_cons hkeys, if_pos (by simp)]
      rfl

/-- The records of a file are written as the entries of its blocks. A block without entries
is a block of comments, and it gives no record. -/
theorem map_lines_of_parse_eq_ok {path : Path} {t : Text} {rs : List Record}
    (h : Record.parse path t = .ok rs) : rs.map Record.lines = t.entryBlocks := by
  obtain ⟨haccepts, -, rfl⟩ := parse_eq_ok_iff.1 h
  have hblocks : ∀ b ∈ (Layout.ofTexts t.lines).blocks,
      (ofBlock? path b).map Record.lines
        = if Layout.entries b ≠ [] then some (Layout.entries b) else none := fun b hb =>
    map_lines_ofBlock? (Layout.orderly_of_mem_blocks haccepts b hb)
  rw [Text.entryBlocks, ← Layout.map_entries_blocks, ← List.filterMap_eq_filter,
    List.filterMap_map, Layout.records, List.map_filterMap]
  refine List.filterMap_congr fun b hb => ?_
  rw [hblocks b hb]
  simp [Option.guard]

/-- All records together are written as the entries of the file. Nothing is left out but
comments and blank lines, and nothing is moved. -/
theorem flatMap_lines_of_parse_eq_ok {path : Path} {t : Text} {rs : List Record}
    (h : Record.parse path t = .ok rs) : rs.flatMap Record.lines = Line.entries t.lines := by
  have hflat : (Layout.ofTexts t.lines).blocks.flatMap Layout.entries
      = Layout.entries (Line.ofTexts 0 t.lines) :=
    Layout.flatMap_filterMap_blocks (fun l hl => by rw [hl]; rfl) _
  rw [Layout.entries_eq_filterMap_items, Line.map_item_ofTexts, Line.filterMap_entryText?]
    at hflat
  -- Blocks without entries add nothing, so it does not matter that they are left out.
  rw [List.flatMap_def, map_lines_of_parse_eq_ok h, Text.entryBlocks,
    List.flatten_filter_ne_nil, ← Layout.map_entries_blocks, ← List.flatMap_def, hflat]

/-- Reading a file and writing its records gives the file stripped of its comments and of
the blank lines that separate nothing else. Each record is written as the entries of one
block, all records together as all entries of the file in their order, and every line that
is no entry is a comment or blank. -/
theorem fileText_eq_stripped {path : Path} {t : Text} {rs : List Record}
    (h : Record.parse path t = .ok rs) :
    fileText rs = t.stripped ∧ rs.map Record.lines = t.entryBlocks ∧
      rs.flatMap Record.lines = Line.entries t.lines ∧
      ∀ l ∈ t.lines, l ∈ Line.entries t.lines ∨ Line.ofText l = .blank
        ∨ Line.ofText l = .comment ∨ Line.ofText l = .indentedComment := by
  have hlines := map_lines_of_parse_eq_ok h
  refine ⟨?_, hlines, flatMap_lines_of_parse_eq_ok h, fun l hl => ?_⟩
  · rw [Text.stripped, ← hlines, List.map_map, fileText]
    exact congrArg _ (List.map_congr_left fun r _ => r.text_eq_flatMap_lines)
  · obtain ⟨haccepts, -, -⟩ := parse_eq_ok_iff.1 h
    have hkind := Layout.entry_or_comment_of_accepts haccepts l hl
    exact hkind.imp (fun hentry => List.mem_filter.2 ⟨hl, hentry⟩) id

/-- A block of comments, an indented comment and a carriage return go. A `#` in a pattern, the
spaces at the end of a value and a comment behind it stay. -/
theorem fileText_eq_stripped_commented :
    ∃ rs, Record.parse ⟨[]⟩
        "# top\n\nlibinput:name:a#:\n # note\n A=1  # x\r\n\nlibinput:mouse:b\n B==".toList
      = .ok rs ∧
      fileText rs = "libinput:name:a#:\n A=1  # x\n\nlibinput:mouse:b\n B==\n".toList := by
  have h : Record.parse ⟨[]⟩
        "# top\n\nlibinput:name:a#:\n # note\n A=1  # x\r\n\nlibinput:mouse:b\n B==".toList
      = .ok
        [⟨⟨[]⟩, 3, [⟨3, ⟨.libinput, .name, "a#:".toList⟩⟩],
            [⟨5, ⟨['A'], "1  ".toList, some " x".toList⟩⟩]⟩,
          ⟨⟨[]⟩, 7, [⟨7, ⟨.libinput, .mouse, ['b']⟩⟩], [⟨8, ⟨['B'], ['='], none⟩⟩]⟩] := by
    decide +kernel
  refine ⟨_, h, (fileText_eq_stripped h).1.trans ?_⟩
  decide +kernel

end Record

end Hwdb
