import Hwdb.Proofs.Rereading

/-!
# `Hwdb.Proofs.EntryLines`: every entry of a file stands in one record

`Record.entryLines` puts the match keys and the properties of a record back on their lines.
One record after the other, these are the lines of the file that are match keys or
properties, with their numbers and in their order (`Record.flatMap_entryLines_of_parse_eq_ok`).
So nothing is lost, doubled or moved on the way from the lines to the records.

Where a record ends can be told from the text: two entries belong to one record unless a
blank line parts them. Entries that no blank line parts lie in one block
(`Layout.exists_mem_blocks_of_ne_blank_between`). An entry that two records share would have
its number twice (`eq_of_mem_of_nodup_flatMap`). `Record.Lists` puts all of this together, and
`Record.parse_lists` says that it is true of every file that can be read.
-/

set_option autoImplicit false

namespace Hwdb

open Layout (AcceptsTexts Orderly)

/-! ### What a text lists -/

namespace Text

/-- The numbers of the lines that are match keys or properties, from the first line on. -/
def entryNumbers (t : Text) : List Nat :=
  (List.range' 1 t.lines.length).filter fun n =>
    t.lines[n - 1]?.any fun l => (Line.ofText l).isEntry

/-- A blank line stands between the lines with the two numbers, whichever of them comes
first. -/
def Parted (t : Text) (m n : Nat) : Prop :=
  ∃ k l, min m n < k ∧ k < max m n ∧ t.HasLine k l ∧ Line.ofText l = .blank

/-- It does not matter which of the two lines comes first. The records of two entries can
then be compared with the earlier one first. -/
theorem Parted.symm {t : Text} {m n : Nat} (h : t.Parted m n) : t.Parted n m := by
  obtain ⟨k, l, hk⟩ := h
  rw [Nat.min_comm, Nat.max_comm] at hk
  exact ⟨k, l, hk⟩

/-- The numbers of the entries are listed from the smallest to the largest, none of them
twice. -/
theorem pairwise_entryNumbers (t : Text) : t.entryNumbers.Pairwise (· < ·) :=
  (List.pairwise_lt_range' 1).filter _

end Text

namespace Line

/-- The lines of a file are numbered without a gap. They are counted from the one after
those before the file. -/
theorem map_line_ofTexts (count : Nat) (ts : List Text) :
    (ofTexts count ts).map Numbered.line = List.range' (count + 1) ts.length := by
  induction ts generalizing count with
  | nil => rfl
  | cons t ts ih =>
      rw [ofTexts, List.map_cons, ih, List.length_cons, List.range'_succ]

/-- The lines that are entries have the numbers that the text lists. Both go by whether a
line is a match key or a property. -/
theorem map_line_entryLines (t : Text) :
    (Layout.entryLines (ofTexts 0 t.lines)).map Numbered.line = t.entryNumbers := by
  have hnumbers : (ofTexts 0 t.lines).map Numbered.line = List.range' 1 t.lines.length :=
    map_line_ofTexts 0 t.lines
  rw [Text.entryNumbers, ← hnumbers, List.filter_map, Layout.entryLines]
  refine congrArg _ (List.filter_congr fun l hl => ?_)
  obtain ⟨s, ⟨-, hs⟩, hitem⟩ := mem_ofTexts_lines_iff.1 hl
  show l.item.isEntry = t.lines[l.line - 1]?.any fun l => (ofText l).isEntry
  rw [hs, ← hitem]
  rfl

/-- A numbered line of a file is found by its number, so that two entries on one line are
one entry. -/
theorem eq_of_mem_ofTexts {count : Nat} {ts : List Text} {l m : Numbered Line}
    (hl : l ∈ ofTexts count ts) (hm : m ∈ ofTexts count ts) (hline : l.line = m.line) :
    l = m := by
  have horder := List.nodup_range' (s := count + 1) (n := ts.length)
  rw [← map_line_ofTexts] at horder
  exact List.inj_on_of_nodup_map horder hl hm hline

end Line

namespace Layout

/-- A line and a later one with no blank line from the one to the other are in one block. It
is the converse of `Layout.ne_blank_of_mem_blocks` for two lines at a distance. -/
theorem exists_mem_blocks_of_ne_blank_between {ts : List Text} {l m : Numbered Line}
    (hl : l ∈ Line.ofTexts 0 ts) (hm : m ∈ Line.ofTexts 0 ts) (hlm : l.line < m.line)
    (hblank : ∀ x ∈ Line.ofTexts 0 ts, l.line ≤ x.line → x.line ≤ m.line → x.item ≠ .blank) :
    ∃ b ∈ (ofTexts ts).blocks, l ∈ b ∧ m ∈ b := by
  have horder := Line.pairwise_ofTexts 0 ts
  -- Cut the file in front of `l` and behind `m`: what is left is a run without a blank line.
  obtain ⟨before, rest, hfile⟩ := List.append_of_mem hl
  rw [hfile] at hm horder hblank
  obtain ⟨-, hrest, hbefore⟩ := List.pairwise_append.1 horder
  have hmrest : m ∈ rest := by
    rcases List.mem_append.1 hm with hm | hm
    · have hml := hbefore m hm l List.mem_cons_self
      omega
    · rcases List.mem_cons.1 hm with rfl | hm
      · exact absurd hlm (Nat.lt_irrefl _)
      · exact hm
  obtain ⟨between, after, rfl⟩ := List.append_of_mem hmrest
  obtain ⟨hfirst, hlast⟩ := List.pairwise_cons.1 hrest
  have hrun : ∀ x ∈ l :: between ++ [m], x.item ≠ .blank := by
    intro x hx
    have hin : x ∈ before ++ l :: (between ++ m :: after) := by
      simp only [List.cons_append, List.mem_cons, List.mem_append, List.not_mem_nil,
        or_false] at hx ⊢
      tauto
    rw [List.cons_append, List.mem_cons, List.mem_append, List.mem_singleton] at hx
    rcases hx with rfl | hx | rfl
    · exact hblank x hin (Nat.le_refl _) (Nat.le_of_lt hlm)
    · have hlx := hfirst x (List.mem_append_left _ hx)
      have hxm := (List.pairwise_append.1 hlast).2.2 x hx m List.mem_cons_self
      exact hblank x hin (Nat.le_of_lt hlx) (Nat.le_of_lt hxm)
    · exact hblank x hin (Nat.le_of_lt hlm) (Nat.le_refl _)
  have hinfix : l :: between ++ [m] <:+: Line.ofTexts 0 ts :=
    ⟨before, after, by rw [hfile]; simp⟩
  obtain ⟨b, hb, hwithin⟩ := exists_mem_blocks_of_isInfix hinfix hrun
  exact ⟨b, hb, hwithin.subset (by simp), hwithin.subset (by simp)⟩

end Layout

/-! ### What records list -/

namespace Record

/-- The match keys of a record and then its properties, on their lines. -/
def entryLines (r : Record) : List (Numbered Line) :=
  r.keys.map (Numbered.map .key) ++ r.properties.map (Numbered.map .property)

/-- The record of an orderly block has the entries of the block, and where there is no
record there are none. -/
theorem flatMap_entryLines_ofBlock? (path : Path) {b : List (Numbered Line)} (h : Orderly b) :
    (ofBlock? path b).toList.flatMap entryLines = Layout.entryLines b := by
  rw [h.entryLines_eq]
  cases hkeys : Layout.keys b with
  | nil =>
      -- Comments alone: there is neither a record nor an entry.
      have hproperties := Layout.properties_eq_nil_of_hasBody_eq_false
        (h.hasBody_eq_false hkeys)
      rw [ofBlock?_of_keys_eq_nil hkeys, hproperties]
      rfl
  | cons k ks =>
      rw [ofBlock?_of_keys_eq_cons hkeys]
      exact List.append_nil _

/-- The records of a file have the entries of its lines, in the order of the lines. So no
entry is in two records, and none is in no record. -/
theorem flatMap_entryLines_of_parse_eq_ok {path : Path} {t : Text} {rs : List Record}
    (h : Record.parse path t = .ok rs) :
    rs.flatMap entryLines = Layout.entryLines (Line.ofTexts 0 t.lines) := by
  obtain ⟨haccepts, -, rfl⟩ := parse_eq_ok_iff.1 h
  have hentry : ∀ l : Numbered Line, l.item = .blank →
      Option.guard (fun l : Numbered Line => l.item.isEntry) l = none := by
    intro l hl
    rw [Option.guard, hl]
    rfl
  have hblocks := Layout.flatMap_filterMap_blocks hentry (Line.ofTexts 0 t.lines)
  rw [List.filterMap_eq_filter] at hblocks
  refine Eq.trans (flatMap_filterMap_ofBlock? fun b hb => ?_) hblocks
  exact flatMap_entryLines_ofBlock? path (Layout.orderly_of_mem_blocks haccepts b hb)

end Record

/-- Two lists that share an element are one list when everything in them is different. So an
entry tells which record it is in. -/
theorem eq_of_mem_of_nodup_flatMap {α β : Type} {f : α → List β} {as : List α}
    (h : (as.flatMap f).Nodup) {i j : Nat} {a a' : α} {b : β} (hi : as[i]? = some a)
    (hj : as[j]? = some a') (hb : b ∈ f a) (hb' : b ∈ f a') : i = j := by
  have hdisjoint := (List.nodup_flatMap.1 h).2
  obtain ⟨hilt, rfl⟩ := List.getElem?_eq_some_iff.1 hi
  obtain ⟨hjlt, rfl⟩ := List.getElem?_eq_some_iff.1 hj
  rcases Nat.lt_trichotomy i j with hij | hij | hij
  · exact absurd hb' (List.pairwise_iff_getElem.1 hdisjoint i j hilt hjlt hij hb)
  · exact hij
  · exact absurd hb (List.pairwise_iff_getElem.1 hdisjoint j i hjlt hilt hij hb')

namespace Record

/-- What the records of a file have to do with the lines of its text. -/
structure Lists (t : Text) (rs : List Record) : Prop where
  /-- One record after the other, first the match keys and then the properties, the entries
  have the numbers of all lines that are match keys or properties. -/
  map_line_eq : (rs.flatMap entryLines).map Numbered.line = t.entryNumbers
  /-- These numbers increase. -/
  pairwise_lt : t.entryNumbers.Pairwise (· < ·)
  /-- Every entry is what its line spells. -/
  ofText_eq : ∀ e ∈ rs.flatMap entryLines, ∃ l, t.HasLine e.line l ∧ Line.ofText l = e.item
  /-- Every record has a match key, -/
  keys_ne_nil : ∀ r ∈ rs, r.keys ≠ []
  /-- and a property. -/
  properties_ne_nil : ∀ r ∈ rs, r.properties ≠ []
  /-- A record has the line of its first match key. -/
  head?_keys : ∀ r ∈ rs, r.keys.head?.map Numbered.line = some r.line
  /-- All match keys of a record come before all its properties. -/
  key_lt_property : ∀ r ∈ rs, ∀ k ∈ r.keys, ∀ p ∈ r.properties, k.line < p.line
  /-- Two entries are in the same record exactly if no blank line parts them. -/
  same_iff : ∀ (i j : Nat) (r s : Record), rs[i]? = some r → rs[j]? = some s →
    ∀ d ∈ r.entryLines, ∀ e ∈ s.entryLines, i = j ↔ ¬ t.Parted d.line e.line

section
variable {path : Path} {t : Text} {rs : List Record}

/-- The record of a block has the entries of the block, which are lines of the file. It is
how an entry of a record is found in the file. -/
theorem exists_block_of_mem_entryLines (h : Record.parse path t = .ok rs) {r : Record}
    (hr : r ∈ rs) :
    ∃ b ∈ (Layout.ofTexts t.lines).blocks, r.entryLines = Layout.entryLines b := by
  obtain ⟨haccepts, -, -⟩ := parse_eq_ok_iff.1 h
  obtain ⟨b, hb, hblock⟩ := exists_block_of_mem h hr
  have hentries := flatMap_entryLines_ofBlock? path
    (Layout.orderly_of_mem_blocks haccepts b hb)
  rw [hblock, Option.toList_some, List.flatMap_singleton] at hentries
  exact ⟨b, hb, hentries⟩

/-- A block with an entry has a record, which has all its entries. Only blocks of comments
have none. -/
theorem exists_getElem?_of_mem_blocks (h : Record.parse path t = .ok rs)
    {b : List (Numbered Line)} (hb : b ∈ (Layout.ofTexts t.lines).blocks)
    {e : Numbered Line} (he : e ∈ Layout.entryLines b) :
    ∃ (k : Nat) (r : Record), rs[k]? = some r ∧ r.entryLines = Layout.entryLines b := by
  obtain ⟨haccepts, -, hrs⟩ := parse_eq_ok_iff.1 h
  have hentries := flatMap_entryLines_ofBlock? path
    (Layout.orderly_of_mem_blocks haccepts b hb)
  -- A block without a record has no entry, and `e` is one.
  cases hblock : ofBlock? path b with
  | none =>
      rw [hblock] at hentries
      rw [← hentries] at he
      cases he
  | some r =>
      have hr : r ∈ rs := by
        rw [hrs]
        exact List.mem_filterMap.2 ⟨b, hb, hblock⟩
      obtain ⟨k, hk⟩ := List.getElem?_of_mem hr
      rw [hblock, Option.toList_some, List.flatMap_singleton] at hentries
      exact ⟨k, r, hk, hentries⟩

/-- No blank line parts two entries of one record: they lie in one block with all lines
between them. -/
theorem not_parted_of_mem_entryLines (h : Record.parse path t = .ok rs) {r : Record}
    (hr : r ∈ rs) {d e : Numbered Line} (hd : d ∈ r.entryLines) (he : e ∈ r.entryLines) :
    ¬ t.Parted d.line e.line := by
  obtain ⟨b, hb, hentries⟩ := exists_block_of_mem_entryLines h hr
  rw [hentries] at hd he
  rintro ⟨n, l, hmin, hmax, hline, hblank⟩
  have hmem := Line.mem_ofTexts_lines_iff.2 ⟨l, hline, hblank⟩
  have hd := List.mem_of_mem_filter hd
  have he := List.mem_of_mem_filter he
  -- The blank line would stand in the block itself, between two of its lines.
  refine Layout.ne_blank_of_mem_blocks hb ⟨n, .blank⟩ ?_ rfl
  rcases Nat.le_total d.line e.line with hde | hed
  · rw [Nat.min_eq_left hde] at hmin
    rw [Nat.max_eq_right hde] at hmax
    exact Layout.mem_of_mem_blocks_of_between hb hd he hmem hmin hmax
  · rw [Nat.min_eq_right hed] at hmin
    rw [Nat.max_eq_left hed] at hmax
    exact Layout.mem_of_mem_blocks_of_between hb he hd hmem hmin hmax

/-- Entries of the file that no blank line parts lie in one block. With all lines between
them, they are a run without a blank line. -/
theorem exists_block_of_not_parted {d e : Numbered Line}
    (hd : d ∈ Layout.entryLines (Line.ofTexts 0 t.lines))
    (he : e ∈ Layout.entryLines (Line.ofTexts 0 t.lines)) (hlt : d.line < e.line)
    (h : ¬ t.Parted d.line e.line) :
    ∃ b ∈ (Layout.ofTexts t.lines).blocks, d ∈ Layout.entryLines b ∧ e ∈ Layout.entryLines b := by
  obtain ⟨hd, hdentry⟩ := List.mem_filter.1 hd
  obtain ⟨he, heentry⟩ := List.mem_filter.1 he
  have hne : ∀ {x : Numbered Line}, x.item.isEntry = true → x.item ≠ .blank := by
    intro x hx hblank
    rw [hblank] at hx
    cases hx
  obtain ⟨b, hb, hdb, heb⟩ := Layout.exists_mem_blocks_of_ne_blank_between hd he hlt
    fun x hx hdx hxe hblank => by
      -- At either end stands an entry, and a blank line between them would part them.
      rcases Nat.lt_or_eq_of_le hdx with hdx | hdx
      · rcases Nat.lt_or_eq_of_le hxe with hxe | hxe
        · obtain ⟨l, hline, hitem⟩ := Line.mem_ofTexts_lines_iff.1 hx
          refine h ⟨x.line, l, ?_, ?_, hline, hitem.trans hblank⟩
          · rwa [Nat.min_eq_left (Nat.le_of_lt hlt)]
          · rwa [Nat.max_eq_right (Nat.le_of_lt hlt)]
        · rw [Line.eq_of_mem_ofTexts hx he hxe] at hblank
          exact hne heentry hblank
      · rw [← Line.eq_of_mem_ofTexts hd hx hdx] at hblank
        exact hne hdentry hblank
  exact ⟨b, hb, List.mem_filter.2 ⟨hdb, hdentry⟩, List.mem_filter.2 ⟨heb, heentry⟩⟩

/-- Of two entries on lines that no blank line parts, the earlier and the later one are in
the same record. The record of their block has both, and no other record has one of them. -/
theorem eq_of_not_parted_of_lt (h : Record.parse path t = .ok rs) {i j : Nat} {r s : Record}
    (hi : rs[i]? = some r) (hj : rs[j]? = some s) {d e : Numbered Line}
    (hd : d ∈ r.entryLines) (he : e ∈ s.entryLines) (hlt : d.line < e.line)
    (hparted : ¬ t.Parted d.line e.line) : i = j := by
  have hflat := flatMap_entryLines_of_parse_eq_ok h
  have hmem : ∀ {r : Record} {x : Numbered Line}, r ∈ rs → x ∈ r.entryLines →
      x ∈ Layout.entryLines (Line.ofTexts 0 t.lines) := by
    intro r x hr hx
    rw [← hflat]
    exact List.mem_flatMap.2 ⟨r, hr, hx⟩
  have hnodup : (rs.flatMap entryLines).Nodup := by
    rw [hflat]
    refine ((Line.pairwise_ofTexts 0 t.lines).imp ?_).filter _
    rintro l m hlm rfl
    exact Nat.lt_irrefl _ hlm
  obtain ⟨b, hb, hdb, heb⟩ := exists_block_of_not_parted
    (hmem (List.mem_of_getElem? hi) hd) (hmem (List.mem_of_getElem? hj) he) hlt hparted
  -- Both are in the record of their common block, and no other record has either of them.
  obtain ⟨k, q, hk, hq⟩ := exists_getElem?_of_mem_blocks h hb hdb
  rw [← hq] at hdb heb
  have hik := eq_of_mem_of_nodup_flatMap hnodup hi hk hd hdb
  have hjk := eq_of_mem_of_nodup_flatMap hnodup hj hk he heb
  rw [hik, hjk]

/-- Two entries are in the same record exactly if no blank line parts them. If they are on
one line, they are one entry, and no line parts it from itself. -/
theorem eq_iff_not_parted (h : Record.parse path t = .ok rs) {i j : Nat} {r s : Record}
    (hi : rs[i]? = some r) (hj : rs[j]? = some s) {d e : Numbered Line}
    (hd : d ∈ r.entryLines) (he : e ∈ s.entryLines) :
    i = j ↔ ¬ t.Parted d.line e.line := by
  constructor
  · rintro rfl
    rw [hi, Option.some.injEq] at hj
    subst hj
    exact not_parted_of_mem_entryLines h (List.mem_of_getElem? hi) hd he
  · intro hparted
    rcases Nat.lt_trichotomy d.line e.line with hlt | heq | hlt
    · exact eq_of_not_parted_of_lt h hi hj hd he hlt hparted
    · -- There is one entry on a line, and it stands in one record.
      have hnumbers := Text.pairwise_entryNumbers t
      rw [← Line.map_line_entryLines, ← flatMap_entryLines_of_parse_eq_ok h,
        List.map_flatMap] at hnumbers
      refine eq_of_mem_of_nodup_flatMap hnumbers.nodup hi hj (List.mem_map.2 ⟨d, hd, rfl⟩) ?_
      exact List.mem_map.2 ⟨e, he, heq.symm⟩
    · exact (eq_of_not_parted_of_lt h hj hi he hd hlt fun hp => hparted hp.symm).symm

/-- Every file that can be read is listed by its records: no match key or property is lost,
doubled, moved or given another number, and the records end where a blank line does it. -/
theorem parse_lists (h : Record.parse path t = .ok rs) : Lists t rs := by
  have hflat := flatMap_entryLines_of_parse_eq_ok h
  have hwf := wellFormed_of_parse_eq_ok h
  exact
    { map_line_eq := by rw [hflat, Line.map_line_entryLines]
      pairwise_lt := Text.pairwise_entryNumbers t
      ofText_eq := by
        intro e he
        rw [hflat] at he
        exact Line.mem_ofTexts_lines_iff.1 (List.mem_of_mem_filter he)
      keys_ne_nil := fun r hr => (hwf r hr).keys_ne_nil
      properties_ne_nil := fun r hr => (hwf r hr).properties_ne_nil
      head?_keys := by
        intro r hr
        obtain ⟨b, -, hblock⟩ := exists_block_of_mem h hr
        unfold ofBlock? at hblock
        split at hblock
        · cases hblock
        · cases hblock
          rfl
      key_lt_property := by
        intro r hr k hk p hp
        obtain ⟨b, hb, hentries⟩ := exists_block_of_mem_entryLines h hr
        -- In its block, the entries of the record stand one behind the other.
        have horder := ((Line.pairwise_ofTexts 0 t.lines).sublist
          (Layout.isInfix_of_mem_blocks hb).sublist).filter fun l => l.item.isEntry
        rw [show b.filter _ = r.entryLines from hentries.symm, entryLines] at horder
        exact (List.pairwise_append.1 horder).2.2 _ (List.mem_map.2 ⟨k, hk, rfl⟩) _
          (List.mem_map.2 ⟨p, hp, rfl⟩)
      same_iff := fun i j r s hi hj d hd e he => eq_iff_not_parted h hi hj hd he }

/-- Comments, a block of comments and a comment that opens the properties move the numbers and
leave nothing behind. -/
theorem parse_lists_commented :
    ∃ (t : Text) (r s : Record),
      t = ("# top\n\nlibinput:name:a\n#\nlibinput:name:b\n  # c\n A=1\n# d\n B=2#\n\n"
        ++ "libinput:mouse:a\n A=1\n").toList ∧
      Record.parse ⟨[]⟩ t = .ok [r, s] ∧ Lists t [r, s] ∧
      t.entryNumbers = [3, 5, 7, 9, 11, 12] ∧ r.line = 3 ∧
      r.keys.map Numbered.line = [3, 5] ∧
      r.properties = [⟨7, ⟨['A'], ['1'], none⟩⟩, ⟨9, ⟨['B'], ['2'], some []⟩⟩] ∧
      ¬ t.Parted 3 9 ∧ t.Parted 9 11 := by
  have h : Record.parse ⟨[]⟩ ("# top\n\nlibinput:name:a\n#\nlibinput:name:b\n  # c\n A=1\n"
        ++ "# d\n B=2#\n\nlibinput:mouse:a\n A=1\n").toList
      = .ok
        [⟨⟨[]⟩, 3, [⟨3, ⟨.libinput, .name, ['a']⟩⟩, ⟨5, ⟨.libinput, .name, ['b']⟩⟩],
            [⟨7, ⟨['A'], ['1'], none⟩⟩, ⟨9, ⟨['B'], ['2'], some []⟩⟩]⟩,
          ⟨⟨[]⟩, 11, [⟨11, ⟨.libinput, .mouse, ['a']⟩⟩], [⟨12, ⟨['A'], ['1'], none⟩⟩]⟩] := by
    decide +kernel
  have hlists := parse_lists h
  refine ⟨_, _, _, rfl, h, hlists, by decide +kernel, rfl, rfl, rfl, ?_, ?_⟩
  · exact (hlists.same_iff 0 0 _ _ rfl rfl ⟨3, .key ⟨.libinput, .name, ['a']⟩⟩ (by decide)
      ⟨9, .property ⟨['B'], ['2'], some []⟩⟩ (by decide)).1 rfl
  · exact not_not.1 fun hparted => absurd ((hlists.same_iff 0 1 _ _ rfl rfl
      ⟨9, .property ⟨['B'], ['2'], some []⟩⟩ (by decide)
      ⟨11, .key ⟨.libinput, .mouse, ['a']⟩⟩ (by decide)).2 hparted) (by decide)

end

end Record

end Hwdb
