import Hwdb.Proofs.Assembly

/-!
# `Hwdb.Proofs.Blocks`: which lines stand in the blocks of a file

A block is a run of lines without a blank one (`ne_blank_of_mem_blocks`,
`isInfix_of_mem_blocks`), and each such run lies in one block
(`exists_mem_blocks_of_isInfix`). What is picked out of the blocks one after the other is
what is picked out of the lines (`flatMap_filterMap_blocks`).

So the records of a file have the match keys and the properties of its lines, each of them
once and in their order (`Record.flatMap_keys_of_parse_eq_ok`,
`Record.flatMap_properties_of_parse_eq_ok`).
-/

set_option autoImplicit false

namespace Hwdb

namespace Layout

/-! ### Runs of lines -/

/-- No block has a blank line, if none of the blocks before the added lines had one. The
induction on the lines needs the statement for any layout. -/
theorem ne_blank_of_mem_blocks_addAll {y : Layout} {ls : List (Numbered Line)}
    (hy : ∀ b ∈ y.blocks, ∀ l ∈ b, l.item ≠ .blank) :
    ∀ b ∈ (y.addAll ls).blocks, ∀ l ∈ b, l.item ≠ .blank := by
  induction ls generalizing y with
  | nil => exact hy
  | cons l ls ih =>
      refine ih fun b hb => ?_
      have hended : ∀ b ∈ y.ended, ∀ l ∈ b, l.item ≠ .blank := fun b hb =>
        hy b (List.mem_append_left _ hb)
      have hcurrent : ∀ l ∈ y.current, l.item ≠ .blank :=
        hy y.current (List.mem_append_right _ List.mem_cons_self)
      -- A blank line goes to no block, and any other one comes last in the block in hand.
      by_cases hblank : l.item = .blank
      · rw [add_blank hblank] at hb
        simp only [blocks, List.mem_append, List.mem_singleton] at hb
        rcases hb with (hb | rfl) | rfl
        · exact hended b hb
        · exact hcurrent
        · simp
      · rw [add_of_ne hblank] at hb
        simp only [blocks, List.mem_append, List.mem_singleton] at hb
        rcases hb with hb | rfl
        · exact hended b hb
        · intro m hm
          rcases List.mem_append.1 hm with hm | hm
          · exact hcurrent m hm
          · rwa [List.mem_singleton.1 hm]

/-- No block of a file has a blank line. Two lines of one block can therefore have no blank
line between them. -/
theorem ne_blank_of_mem_blocks {ls b : List (Numbered Line)}
    (hb : b ∈ (empty.addAll ls).blocks) : ∀ l ∈ b, l.item ≠ .blank := by
  refine ne_blank_of_mem_blocks_addAll (fun b hb => ?_) b hb
  rw [List.mem_singleton.1 hb]
  simp [empty]

/-- Lines without a blank one all go to the block in hand, in their order. No block ends on
the way. -/
theorem addAll_of_ne_blank {y : Layout} {ls : List (Numbered Line)}
    (h : ∀ l ∈ ls, l.item ≠ .blank) : y.addAll ls = ⟨y.ended, y.current ++ ls⟩ := by
  induction ls generalizing y with
  | nil => rw [addAll_nil, List.append_nil]
  | cons l ls ih =>
      have ih := ih (y := ⟨y.ended, y.current ++ [l]⟩) fun m hm =>
        h m (List.mem_cons_of_mem _ hm)
      rw [addAll_cons, add_of_ne (h l List.mem_cons_self), ih, List.append_assoc,
        List.singleton_append]

/-- The block in hand becomes the first part of some block, however the file goes on. It
grows until a blank line or the end of the file comes, and does not change after that. -/
theorem exists_mem_blocks_of_current (y : Layout) (ls : List (Numbered Line)) :
    ∃ b ∈ (y.addAll ls).blocks, y.current <+: b := by
  -- Once a blank line has ended it, no line changes it any more.
  have hended : ∀ (y : Layout), ∀ b ∈ y.ended, ∀ ls, b ∈ (y.addAll ls).blocks := by
    intro y b hb ls
    induction ls generalizing y with
    | nil => exact List.mem_append_left _ hb
    | cons l ls ih =>
        refine ih (y.add l) ?_
        by_cases hblank : l.item = .blank
        · rw [add_blank hblank]
          exact List.mem_append_left _ hb
        · rw [add_of_ne hblank]
          exact hb
  induction ls generalizing y with
  | nil => exact ⟨y.current, List.mem_append_right _ List.mem_cons_self, List.prefix_rfl⟩
  | cons l ls ih =>
      by_cases hblank : l.item = .blank
      · refine ⟨y.current, ?_, List.prefix_rfl⟩
        refine hended (y.add l) y.current ?_ ls
        rw [add_blank hblank]
        exact List.mem_append_right _ List.mem_cons_self
      · obtain ⟨b, hb, hbegins⟩ := ih (y.add l)
        refine ⟨b, hb, List.IsPrefix.trans ?_ hbegins⟩
        rw [add_of_ne hblank]
        exact List.prefix_append _ _

/-- Lines that come one after the other, without a blank one, lie in one block. With
`isInfix_of_mem_blocks` this says that blocks are the longest such runs. -/
theorem exists_mem_blocks_of_isInfix {ls c : List (Numbered Line)} (h : c <:+: ls)
    (hc : ∀ l ∈ c, l.item ≠ .blank) : ∃ b ∈ (empty.addAll ls).blocks, c <:+: b := by
  obtain ⟨before, after, rfl⟩ := h
  obtain ⟨b, hb, hbegins⟩ :=
    exists_mem_blocks_of_current (empty.addAll (before ++ c)) after
  rw [addAll_append, addAll_of_ne_blank hc] at hbegins
  refine ⟨b, by rwa [addAll_append], List.IsInfix.trans ?_ hbegins.isInfix⟩
  exact (List.suffix_append _ _).isInfix

/-- The lines of a block come one after the other in the file, with nothing between them. So
whatever stands between two lines of a block belongs to the block. -/
theorem isInfix_of_mem_blocks {ls b : List (Numbered Line)}
    (hb : b ∈ (empty.addAll ls).blocks) : b <:+: ls := by
  -- From any layout, a block has ended before or is a run of what is in hand and to come.
  have hrun : ∀ (y : Layout), b ∈ (y.addAll ls).blocks →
      b ∈ y.ended ∨ b <:+: y.current ++ ls := by
    clear hb
    induction ls with
    | nil =>
        intro y hb
        rw [List.append_nil]
        refine (List.mem_append.1 hb).imp id fun hb => ?_
        rw [List.mem_singleton.1 hb]
        exact List.infix_rfl
    | cons l ls ih =>
        intro y hb
        rcases ih (y.add l) hb with hended | hwithin
        · by_cases hblank : l.item = .blank
          · rw [add_blank hblank, List.mem_append, List.mem_singleton] at hended
            refine hended.imp id fun hcurrent => ?_
            rw [hcurrent]
            exact (List.prefix_append _ _).isInfix
          · rw [add_of_ne hblank] at hended
            exact Or.inl hended
        · refine Or.inr (hwithin.trans ?_)
          by_cases hblank : l.item = .blank
          · rw [add_blank hblank, List.nil_append]
            exact (List.suffix_append_of_suffix (List.suffix_cons l ls)).isInfix
          · rw [add_of_ne hblank, List.append_assoc]
            exact List.infix_rfl
  exact (hrun empty hb).resolve_left List.not_mem_nil

/-- The same as `exists_mem_blocks_of_isInfix` for the lines without their numbers, which is
the form in which a file is described by its lines alone. -/
theorem exists_mem_blocks_of_items {ls : List (Numbered Line)} {run : List Line}
    (h : run <:+: ls.map Numbered.item) (hrun : .blank ∉ run) :
    ∃ b ∈ (empty.addAll ls).blocks, run <:+: b.map Numbered.item := by
  obtain ⟨before, after, hlines⟩ := h
  -- The run is found among the numbered lines by cutting these where the others are cut.
  obtain ⟨ls', after', rfl, hls', -⟩ := List.map_eq_append_iff.1 hlines.symm
  obtain ⟨before', c, rfl, -, rfl⟩ := List.map_eq_append_iff.1 hls'
  have hc : ∀ l ∈ c, l.item ≠ .blank := fun l hl hitem =>
    hrun (List.mem_map.2 ⟨l, hl, hitem⟩)
  obtain ⟨b, hb, hwithin⟩ := exists_mem_blocks_of_isInfix ⟨before', after', rfl⟩ hc
  exact ⟨b, hb, hwithin.map Numbered.item⟩

/-! ### The contents of blocks -/

/-- What is picked out of all blocks is what is picked out of the lines, as long as nothing
is picked out of blank lines: those are the only lines that go to no block. -/
theorem flatMap_filterMap_blocks_addAll {β : Type} {f : Numbered Line → Option β}
    (hf : ∀ l, l.item = .blank → f l = none) (y : Layout) (ls : List (Numbered Line)) :
    (y.addAll ls).blocks.flatMap (List.filterMap f)
      = y.blocks.flatMap (List.filterMap f) ++ ls.filterMap f := by
  induction ls generalizing y with
  | nil => exact (List.append_nil _).symm
  | cons l ls ih =>
      -- One line: it ends a block and gives nothing, or it comes last of all and gives what
      -- it gives.
      have hadd : (y.add l).blocks.flatMap (List.filterMap f)
          = y.blocks.flatMap (List.filterMap f) ++ [l].filterMap f := by
        by_cases hblank : l.item = .blank
        · rw [add_blank hblank]
          simp [blocks, hf l hblank]
        · rw [add_of_ne hblank]
          simp [blocks]
      rw [addAll_cons, ih, hadd, List.append_assoc, ← List.filterMap_append,
        List.singleton_append]

/-- What is picked out of the blocks of a file is what is picked out of its lines. It is
used for match keys, for properties and for the entries of a file alike. -/
theorem flatMap_filterMap_blocks {β : Type} {f : Numbered Line → Option β}
    (hf : ∀ l, l.item = .blank → f l = none) (ls : List (Numbered Line)) :
    (empty.addAll ls).blocks.flatMap (List.filterMap f) = ls.filterMap f :=
  flatMap_filterMap_blocks_addAll hf empty ls

/-- The match keys of a file are those of its blocks, one block after the other. None is
lost where a block ends, since a blank line has none. -/
theorem flatMap_keys_blocks (ls : List (Numbered Line)) :
    (empty.addAll ls).blocks.flatMap keys = keys ls := by
  refine flatMap_filterMap_blocks (fun l hl => ?_) ls
  rw [hl]
  rfl

/-- The properties of a file are those of its blocks, one block after the other. -/
theorem flatMap_properties_blocks (ls : List (Numbered Line)) :
    (empty.addAll ls).blocks.flatMap properties = properties ls := by
  refine flatMap_filterMap_blocks (fun l hl => ?_) ls
  rw [hl]
  rfl

/-- The blocks of lines that may stand where they stand are orderly, the ended ones and the
one in hand. A block that has ended is not changed any more, so it stays orderly. -/
theorem orderly_of_mem_blocks_addAll {y : Layout} {ls : List (Numbered Line)}
    (hy : ∀ b ∈ y.blocks, Orderly b) (hls : y.Accepts ls) :
    ∀ b ∈ (y.addAll ls).blocks, Orderly b := by
  induction ls generalizing y with
  | nil => exact hy
  | cons l ls ih =>
      have hcurrent : Orderly y.current :=
        hy y.current (List.mem_append_right _ List.mem_cons_self)
      refine ih (fun b hb => ?_) hls.2
      -- A block is one that had ended before, or the one in hand.
      rcases List.mem_append.1 hb with hb | hb
      · by_cases hblank : l.item = .blank
        · rw [add_blank hblank] at hb
          exact hy b hb
        · rw [add_of_ne hblank] at hb
          exact hy b (List.mem_append_left _ hb)
      · rw [List.mem_singleton.1 hb]
        exact orderly_add hcurrent hls.1

/-- All blocks of a file are orderly if its lines may stand where they stand. This is what
makes the record of a block complete: nothing is left out of an orderly block. -/
theorem orderly_of_mem_blocks {ts : List Text} (h : AcceptsTexts ts) :
    ∀ b ∈ (ofTexts ts).blocks, Orderly b := by
  refine orderly_of_mem_blocks_addAll (fun b hb => ?_) h
  rw [List.mem_singleton.1 hb]
  exact .nil

end Layout

namespace Record

open Layout (Orderly AcceptsTexts)

/-- The record of an orderly block has the match keys and the properties of the block, also
when there are none and so there is no record. -/
theorem flatMap_ofBlock? {path : Path} {b : List (Numbered Line)} (h : Orderly b) :
    (ofBlock? path b).toList.flatMap Record.keys = Layout.keys b ∧
      (ofBlock? path b).toList.flatMap Record.properties = Layout.properties b := by
  cases hkeys : Layout.keys b with
  | nil =>
      -- Such a block has comments only, so nothing is lost with it.
      have hproperties := Layout.properties_eq_nil_of_hasBody_eq_false
        (h.hasBody_eq_false hkeys)
      rw [ofBlock?_of_keys_eq_nil hkeys, hproperties]
      exact ⟨rfl, rfl⟩
  | cons k ks =>
      rw [ofBlock?_of_keys_eq_cons hkeys]
      simp

/-- What the records hold is what the blocks hold, if each block passes it on to its record.
The two lemmas below are this for match keys and for properties. -/
theorem flatMap_filterMap_ofBlock? {β : Type} {path : Path} {f : Record → List β}
    {g : List (Numbered Line) → List β} {bs : List (List (Numbered Line))}
    (h : ∀ b ∈ bs, (ofBlock? path b).toList.flatMap f = g b) :
    (bs.filterMap (ofBlock? path)).flatMap f = bs.flatMap g := by
  induction bs with
  | nil => rfl
  | cons b bs ih =>
      have hb := h b List.mem_cons_self
      have ih := ih fun c hc => h c (List.mem_cons_of_mem _ hc)
      rw [List.flatMap_cons, ← ih, ← hb]
      cases hrecord : ofBlock? path b <;> simp [hrecord]

/-- The records of a file have the match keys of its lines, each of them once, with its
number and in the order of the file. -/
theorem flatMap_keys_of_parse_eq_ok {path : Path} {t : Text} {rs : List Record}
    (h : Record.parse path t = .ok rs) :
    rs.flatMap Record.keys = Layout.keys (Line.ofTexts 0 t.lines) := by
  obtain ⟨haccepts, -, rfl⟩ := parse_eq_ok_iff.1 h
  rw [← Layout.flatMap_keys_blocks]
  exact flatMap_filterMap_ofBlock? fun b hb =>
    (flatMap_ofBlock? (Layout.orderly_of_mem_blocks haccepts b hb)).1

/-- The records of a file have the properties of its lines, each of them once, with its
number and in the order of the file. -/
theorem flatMap_properties_of_parse_eq_ok {path : Path} {t : Text} {rs : List Record}
    (h : Record.parse path t = .ok rs) :
    rs.flatMap Record.properties = Layout.properties (Line.ofTexts 0 t.lines) := by
  obtain ⟨haccepts, -, rfl⟩ := parse_eq_ok_iff.1 h
  rw [← Layout.flatMap_properties_blocks]
  exact flatMap_filterMap_ofBlock? fun b hb =>
    (flatMap_ofBlock? (Layout.orderly_of_mem_blocks haccepts b hb)).2

end Record

end Hwdb
