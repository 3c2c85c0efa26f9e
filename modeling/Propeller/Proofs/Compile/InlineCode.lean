import Propeller.Proofs.Assembly.Segments
import Propeller.Proofs.Compile.InlineBlocks
import Propeller.Proofs.Compile.Verdict

/-!
# Compile — the code of blocks of assembly code

The instruction that runs a block of assembly code has two operands and the code of the block behind
them.  The first operand is the origin of the block in 32 bits, and the second one counts the longs of
the code behind the first long.  An interpreter takes as many longs as are counted, and goes on behind
them: at the byte behind the block if the code consists of longs (`resumes_iff`).

* `assemble_run`: lines that assemble without a problem have gone through a pass that changed nothing.
* `Run.dvd_object_iff`: the code of a block that ends in a cog consists of longs exactly if its last
  segment begins at one.
* `compile_inlineBlocks`: what becomes of the blocks of assembly code in an image.
-/

namespace Propeller

variable {length limit n : Nat} {scopes : Scopes} {start : Start} {t : Addresses} {c : Cursor}
  {library : Library} {b : InlineBlock} {config : Config} {d : Draft} {p : Parts} {image : ObjectImage}
  {inline : Nat × Nat}

/-! ### Reading a block -/

/-- The instruction that runs a block of assembly code, with the code behind it. -/
def inlineBytes (origin : Nat) (code : Bytes) : Bytes :=
  Op.inline.byte :: Varint.unsigned origin ++ Varint.unsigned (code.length / 4 - 1) ++ code

/-- An interpreter finds the origin of the block and its code, and goes on at the byte behind it. -/
def Resumes (origin : Int) (bytes code : Bytes) : Prop :=
  ∃ o : Nat, (o : Int) = origin ∧ Reads decode bytes (.inline o code)

/-- A reader goes on with what the one before it has left. -/
theorem reader_bind {α β : Type} {r : Reader α} {f : α → Reader β} {bytes rest : Bytes} {a : α}
    (h : r bytes = some (a, rest)) : (r >>= f) bytes = f a rest := by
  have hconst : (r >>= f) bytes = ((fun _ => r bytes : Reader α) >>= f) bytes := rfl
  rw [hconst, h]
  rfl

/-- How many bytes are taken as the code of a block that has a number of bytes. -/
def bytesTaken (length : Nat) : Nat := 4 * ((length / 4 - 1) % 2 ^ 29 + 1)

theorem bytesTaken_le (h : 4 ≤ length) : bytesTaken length ≤ length := by
  have hmod := Nat.mod_le (length / 4 - 1) (2 ^ 29)
  unfold bytesTaken
  omega

theorem bytesTaken_eq_iff (h : 4 ≤ length) :
    bytesTaken length = length ↔ 4 ∣ length ∧ length ≤ 2 ^ 31 := by
  unfold bytesTaken
  constructor
  · intro heq
    have hlt := Nat.mod_lt (length / 4 - 1) (show 0 < 2 ^ 29 by decide)
    omega
  · rintro ⟨hdvd, hle⟩
    rw [Nat.mod_eq_of_lt (by omega)]
    omega

/-- **What is read** of an instruction that runs a block. -/
theorem decode_inlineBytes (origin : Nat) {code : Bytes} (h : 4 ≤ code.length) (rest : Bytes) :
    decode (inlineBytes origin code ++ rest) =
      some (.inline (origin % 2 ^ 29) ((code ++ rest).take (bytesTaken code.length)),
        (code ++ rest).drop (bytesTaken code.length)) := by
  have hrow : inlineBytes origin code ++ rest = [Op.inline.byte] ++
      (Varint.unsigned origin ++ (Varint.unsigned (code.length / 4 - 1) ++ (code ++ rest))) := by
    simp [inlineBytes]
  have hle : bytesTaken code.length ≤ (code ++ rest).length :=
    Nat.le_trans (bytesTaken_le h) (by simp)
  have htake : Reader.take (bytesTaken code.length) (code ++ rest) =
      some ((code ++ rest).take (bytesTaken code.length), (code ++ rest).drop (bytesTaken code.length)) :=
    if_pos hle
  rw [hrow]
  refine (reader_bind (Lead.reads_read (Lead.mem_op .inline) _)).trans ?_
  refine (reader_bind (Varint.readUnsigned_unsigned_mod origin _)).trans ?_
  refine (reader_bind (Varint.readUnsigned_unsigned_mod (code.length / 4 - 1) _)).trans ?_
  exact reader_bind htake

/-- **Going on behind a block.**  The origin and the code are read back, and what stands behind them is
left, exactly if the origin is a number of 29 bits and the code consists of longs that can be counted. -/
theorem resumes_iff {origin : Int} {code : Bytes} (h : 4 ≤ code.length) :
    Resumes origin (inlineBytes (origin % 2 ^ 32).toNat code) code ↔
      0 ≤ origin ∧ origin < 2 ^ 29 ∧ 4 ∣ code.length ∧ code.length ≤ 2 ^ 31 := by
  rw [← bytesTaken_eq_iff h]
  constructor
  · rintro ⟨o, ho, hreads⟩
    -- nothing behind the block: then all of it has to be taken
    have hread := hreads []
    rw [decode_inlineBytes _ h, List.append_nil, Option.some.injEq, Prod.mk.injEq,
      Meaning.inline.injEq, List.drop_eq_nil_iff] at hread
    obtain ⟨⟨horigin, -⟩, hle⟩ := hread
    have := Nat.mod_lt (origin % 2 ^ 32).toNat (show 0 < 2 ^ 29 by decide)
    exact ⟨by omega, by omega, Nat.le_antisymm (bytesTaken_le h) hle⟩
  · rintro ⟨hnonneg, hlt, htaken⟩
    refine ⟨origin.toNat, Int.toNat_of_nonneg hnonneg, fun rest => ?_⟩
    have horigin : (origin % 2 ^ 32).toNat % 2 ^ 29 = origin.toNat := by omega
    rw [decode_inlineBytes _ h, htaken, horigin, List.take_left, List.drop_left]

/-! ### The pass over a block -/

/-- The offset behind the last line is where a run has come to. -/
theorem Run.endOffset_eq {initial : Addresses} {done : List PlacedLine}
    (run : Run scopes start initial done c t) (ha : ∀ l ∈ done, l.line.content ≠ .align 0) :
    endOffset start.object (done.map PlacedLine.placement) = c.object := by
  cases run with
  | nil => exact (Cursor.object_ofStart start).symm
  | @snoc done c next t t' line p moved before here label =>
    have hline := ha _ (List.mem_append_right done (List.mem_singleton_self _))
    rw [List.map_append, endOffset, List.map_singleton, List.getLast?_concat]
    exact (Content.place_object hline here).2.symm

/-- **Lines that assemble without a problem** have gone through a pass that changed nothing, and the code
is as long as the pass has come. -/
theorem assemble_run {lines : List AsmLine} (h : (assemble scopes start lines limit t).problems = [])
    (ha : ∀ line ∈ lines, line.content ≠ .align 0) :
    ∃ done final table, Run scopes start table done final table ∧
      done.map PlacedLine.line = lines ∧
      ((assemble scopes start lines limit t).bytes.length : Int) = final.object - start.object := by
  obtain ⟨ps, hp, he, -⟩ := assemble_emitted h ha
  have hplace := hp.place
  obtain ⟨done, final, hrun, rfl, rfl⟩ := place_run (congrArg Pass.outcome hplace)
  rw [hplace] at hrun
  refine ⟨done, final, _, hrun, rfl, ?_⟩
  have hdone : ∀ l ∈ done, l.line.content ≠ .align 0 :=
    fun l hl => ha l.line (List.mem_map_of_mem hl)
  rw [he.length_eq, hrun.endOffset_eq hdone]

/-- A line that returns is one instruction of one long. -/
theorem AsmLine.IsReturn.instruction {line : AsmLine} (h : line.IsReturn) :
    ∃ i : Instruction, line.content = .instruction i ∧ ∀ env, i.size env = 4 := by
  obtain ⟨location, h⟩ := h
  cases h
  exact ⟨_, rfl, fun _ => rfl⟩

/-- An instruction of one long is placed in front of the next line. -/
theorem Content.place_long {i : Instruction} {env : Environment} {next : Cursor} {p : Placement}
    (hsize : i.size env = 4) (h : (Content.instruction i).place env c = .ok (p, next)) :
    p.size = 4 ∧ next.hub = p.hub ∧ next.address = p.address + 4 := by
  obtain ⟨start, size, stored, -, he, rfl, rfl⟩ := place_eq_ok h
  simp only [extent] at he
  split at he
  · cases he
  · cases he
    simp [hsize]

section

variable {scopes : Scopes} {origin : Int} {initial t : Addresses} {done : List PlacedLine}
  {final : Cursor} {front : List AsmLine} {last : AsmLine}

/-- Behind an instruction that returns: there is at least this instruction, the limit is kept, and in a
cog it ends at a long. -/
theorem Run.returns (run : Run scopes (.cog origin) initial done final t)
    (ha : ∀ l ∈ done, l.line.content ≠ .align 0)
    (hdone : done.map PlacedLine.line = front ++ [last]) (hlast : last.IsReturn) :
    4 ≤ final.object ∧ final.address ≤ final.limit ∧ (final.hub = false → 4 ∣ final.address) := by
  cases run with
  | nil => simp at hdone
  | @snoc done c next t t' line p moved before here label =>
    have hline := ha _ (List.mem_append_right done (List.mem_singleton_self _))
    have hbefore := before.behind fun l hl => ha l (List.mem_append_left _ hl)
    rw [List.map_append] at hdone
    obtain ⟨i, hi, hsize⟩ := hlast.instruction
    -- the line that was placed last is the one that returns
    have hcontent : line.content = .instruction i := by
      rw [← hi]
      exact congrArg AsmLine.content (List.cons.inj (List.append_inj' hdone rfl).2).1
    rw [hcontent] at here hline
    obtain ⟨hplaced, hhub, haddress⟩ := Content.place_long (hsize _) here
    have hobject := Content.place_object hline here
    have hstart : 0 ≤ c.object := hbefore.starts
    refine ⟨by omega, Content.place_le_limit here, fun hcog => ?_⟩
    have := Content.place_instruction here (hhub ▸ hcog)
    omega

/-- **Whole longs.**  The code of a block that ends in a cog consists of longs exactly if its last segment
begins at one. -/
theorem Run.dvd_object_iff (run : Run scopes (.cog origin) initial done final t)
    (ha : ∀ l ∈ done, l.line.content ≠ .align 0)
    (hdone : done.map PlacedLine.line = front ++ [last]) (hlast : last.IsReturn) {g : Segment}
    (hg : lastSegment (.cog origin) done = some g) : 4 ∣ final.object ↔ 4 ∣ g.object := by
  have hf := run.behind ha
  have haddress := (run.returns ha hdone hlast).2.2 (hf.cog g hg).1
  have hapart := hf.apart g hg
  omega

/-- Lines that neither begin a segment nor end one leave the segment as it is. -/
theorem lastSegment_of_ne (h : ∀ l ∈ done, (∀ e, l.line.content ≠ .org e) ∧
    ∀ e, l.line.content ≠ .orgh e) : lastSegment start done = start.segment := by
  unfold lastSegment
  induction done with
  | nil => rfl
  | cons l rest ih =>
    obtain ⟨horg, horgh⟩ := h l (.head _)
    rw [List.foldl_cons, PlacedLine.segmentBehind_of_ne horg horgh]
    exact ih fun q hq => h q (.tail _ hq)

/-- **One segment.**  The code of a block in one segment consists of longs, and it ends within the memory
of a cog and its lookup memory. -/
theorem Run.dvd_object_of_ne (run : Run scopes (.cog origin) initial done final t)
    (ha : ∀ l ∈ done, l.line.content ≠ .align 0)
    (hdone : done.map PlacedLine.line = front ++ [last]) (hlast : last.IsReturn)
    (h : ∀ l ∈ done, (∀ e, l.line.content ≠ .org e) ∧ ∀ e, l.line.content ≠ .orgh e) :
    4 ∣ final.object ∧ final.object + 4 * origin ≤ 4 * 0x400 := by
  have hg : lastSegment (.cog origin) done = some ⟨origin, 0⟩ := lastSegment_of_ne h
  have hf := run.behind ha
  refine ⟨(run.dvd_object_iff ha hdone hlast hg).mpr (Int.dvd_zero 4), ?_⟩
  have hwithin := hf.within _ hg
  have hlimit := (run.returns ha hdone hlast).2.1
  rw [(hf.cog _ hg).2] at hlimit
  have hle : (⟨origin, 0⟩ : Segment).limit ≤ 0x400 := by
    unfold Segment.limit
    split <;> decide
  simp only at hwithin
  omega

end

/-! ### The blocks of an object -/

/-- Only two directives begin a segment or end one. -/
theorem SourceLine.content_ne_org {s : Scopes} {scope : ScopeId} {line : SourceLine} {content : Content}
    (h : line.content library s scope = .ok content) (horg : line.directive? ≠ some .org)
    (horgh : line.directive? ≠ some .orgh) : (∀ e, content ≠ .org e) ∧ ∀ e, content ≠ .orgh e := by
  unfold SourceLine.content at h
  split at h
  · cases h
    simp
  · split at h
    · obtain ⟨_, -, h⟩ := bind_eq_ok h
      obtain ⟨_, -, h⟩ := bind_eq_ok h
      obtain ⟨_, -, h⟩ := bind_eq_ok h
      obtain ⟨_, -, h⟩ := bind_eq_ok h
      obtain ⟨_, -, h⟩ := bind_eq_ok h
      cases h
      simp
    · split at h
      · cases h
      · next directive hdirective _ =>
        cases directive with
        | org => exact absurd hdirective horg
        | orgh => exact absurd hdirective horgh
        | alignw | alignl =>
          cases h
          simp
        | file =>
          simp only [SourceLine.directiveContent] at h
          split at h
          · split at h
            · cases h
              simp
            · cases h
          · cases h
        | data | res | fit =>
          obtain ⟨_, -, h⟩ := bind_eq_ok h
          cases h
          simp
        | orgf =>
          obtain ⟨first, -, h⟩ := bind_eq_ok h
          split at h
          · cases h
            simp
          · cases h

/-- The code of each block is that of its lines, assembled without a problem. -/
theorem assembleBlocks_code {blocks : List InlineBlock}
    (h : (assembleBlocks scopes limit blocks t).2.2 = []) (hb : blocks[n]? = some b) :
    ∃ t', (assemble scopes (.cog b.origin) b.lines limit t').problems = [] ∧
      (assembleBlocks scopes limit blocks t).2.1[n]? =
        some (assemble scopes (.cog b.origin) b.lines limit t').bytes := by
  induction blocks generalizing t n with
  | nil => simp at hb
  | cons first rest ih =>
    obtain ⟨hfirst, hrest⟩ := List.append_eq_nil_iff.mp h
    cases n with
    | zero =>
      obtain rfl : first = b := by simpa using hb
      exact ⟨t, hfirst, rfl⟩
    | succ n => exact ih hrest (by simpa using hb)

/-- The code of blocks without problems. -/
theorem Parts.block_code (h : buildImage config d p (p.removed config) = .ok image)
    (hb : d.blocks[n]? = some b) :
    ∃ t', (assemble d.scopes (.cog b.origin) b.lines config.iterationLimit t').problems = [] ∧
      (p.resolution config d).block n =
        (assemble d.scopes (.cog b.origin) b.lines config.iterationLimit t').bytes := by
  obtain ⟨-, hblocks, -⟩ := exists_buildImage_iff.mp ⟨image, h⟩
  obtain ⟨t', hclean, hcode⟩ := assembleBlocks_code (assembleBlocks_problems_iff.mpr hblocks) hb
  refine ⟨t', hclean, ?_⟩
  simp only [Parts.resolution, Parts.inlineCode, List.getD_eq_getElem?_getD, hcode, Option.getD_some]

/-- An instruction of a method in the table stands in the image. -/
theorem Parts.Image.instruction_at {layouts : List MethodLayout} (h : p.Image config d layouts image)
    {m : MethodDraft} (hm : m ∈ p.table config) {c : Code}
    (hc : Entry.code c ∈ (Command.body m.body).listing) :
    ∃ here lines own offset, c.encode (p.resolution config d) here lines = .ok own ∧
      StandsAt own image.bytes offset := by
  obtain ⟨i, hm⟩ := List.mem_iff_getElem?.mp hm
  obtain ⟨layout, hl⟩ : ∃ layout, layouts[i]? = some layout := by
    have hlt := (List.getElem?_eq_some_iff.mp hm).1
    rw [← h.consecutive.1] at hlt
    exact ⟨_, List.getElem?_eq_getElem hlt⟩
  have hmem : (m, layout) ∈ (p.table config).zip layouts :=
    List.mem_of_getElem? (List.getElem?_zip_eq_some.mpr ⟨hm, hl⟩)
  have hinfix : [Entry.code c] <:+: (Command.body m.body).listing := by
    obtain ⟨before, after, hsplit⟩ := List.append_of_mem hc
    exact ⟨before, after, by rw [hsplit, List.append_assoc, List.singleton_append]⟩
  obtain ⟨here, own, offset, hown, hat⟩ := emitListing_infix hinfix (h.emitted _ hmem)
  obtain ⟨bytes, _, hencode, ⟨⟩, rfl⟩ := emitListing_code hown
  rw [List.append_nil] at hat
  exact ⟨_, _, _, _, hencode, hat.trans (h.code_at hm hl).2⟩

/-- An instruction that runs a block stands in the image with the code of the block. -/
theorem Parts.Image.inline_at {layouts : List MethodLayout} (h : p.Image config d layouts image)
    {m : MethodDraft} (hm : m ∈ p.table config)
    (hi : inline ∈ Listing.inlines (Command.body m.body).listing) :
    ∃ offset, StandsAt (inlineBytes inline.1 ((p.resolution config d).block inline.2)) image.bytes
      offset := by
  obtain ⟨e, he, heq⟩ := List.mem_filterMap.mp hi
  obtain ⟨_, _, _, offset, hcode, hat⟩ := h.instruction_at hm (Entry.eq_of_inline? heq ▸ he)
  cases hcode
  exact ⟨offset, hat⟩

/-- What becomes of a block of assembly code that is written in a method: the instruction that runs it,
and its code. -/
structure Inlined (library : Library) (d : Draft) (lines : List SourceLine) (inline : Nat × Nat)
    (b : InlineBlock) (code : Bytes) : Prop where
  /-- The instruction says the number of the block that is made of the lines, and its origin. -/
  block_eq : d.blocks[inline.2]? = some b
  made : b.MadeOf library lines
  origin_eq : inline.1 = (b.origin % 2 ^ 32).toNat
  /-- There is code, since a block returns. -/
  length_ge : 4 ≤ code.length
  /-- If the block ends in a cog, its code consists of longs exactly if its last segment begins at one. -/
  segment : ∃ done final table, Run d.scopes (.cog b.origin) table done final table ∧
    done.map PlacedLine.line = b.lines ∧ (code.length : Int) = final.object ∧
    ∀ g, lastSegment (.cog b.origin) done = some g → (4 ∣ code.length ↔ 4 ∣ g.object)
  /-- The interpreter goes on at the byte behind the block exactly if the origin has 29 bits and the code
  consists of longs that can be counted. -/
  resumes : Resumes b.origin (inlineBytes inline.1 code) code ↔
    0 ≤ b.origin ∧ b.origin < 2 ^ 29 ∧ 4 ∣ code.length ∧ code.length ≤ 2 ^ 31
  /-- Without a further origin the code consists of longs and ends within the memory of a cog and its
  lookup memory.  Only an origin below 0 is wrong then. -/
  plain : (∀ line ∈ behindOrigin lines,
      line.directive? ≠ some .org ∧ line.directive? ≠ some .orgh) →
    4 ∣ code.length ∧ b.origin < 0x400 ∧
      (Resumes b.origin (inlineBytes inline.1 code) code ↔ 0 ≤ b.origin)

namespace InlineBlock.MadeOf

variable {library : Library} {lines : List SourceLine} {b : InlineBlock}

/-- What is so of the contents of the lines behind the origin, and of an instruction, is so of the
contents of a block. -/
theorem forall_content {P : Content → Prop} (h : b.MadeOf library lines)
    (hlines : ∀ source ∈ behindOrigin lines, ∀ s scope content,
      source.content library s scope = .ok content → P content)
    (hreturn : ∀ i, P (.instruction i)) : ∀ line ∈ b.lines, P line.content := by
  obtain ⟨-, converted, last, hconverted, hlast, heq⟩ := h
  intro line hline
  rw [heq] at hline
  rcases List.mem_append.mp hline with hline | hline
  · obtain ⟨source, hsource, -, s, scope, hcontent⟩ := exists_of_forall₂ hconverted hline
    exact hlines source hsource s scope _ hcontent
  · obtain ⟨i, hi, -⟩ := hlast.instruction
    rw [List.mem_singleton.mp hline, hi]
    exact hreturn i

/-- No line of a block is aligned to zero bytes. -/
theorem content_ne_align (h : b.MadeOf library lines) :
    ∀ line ∈ b.lines, line.content ≠ .align 0 :=
  h.forall_content (P := (· ≠ .align 0)) (fun _ _ _ _ _ hcontent => Compile.content_ne_align hcontent)
    (by simp)

/-- If no further origin is written, no line of the block begins a segment or ends one. -/
theorem content_ne_org (h : b.MadeOf library lines)
    (hplain : ∀ line ∈ behindOrigin lines,
      line.directive? ≠ some .org ∧ line.directive? ≠ some .orgh) :
    ∀ line ∈ b.lines, (∀ e, line.content ≠ .org e) ∧ ∀ e, line.content ≠ .orgh e :=
  h.forall_content (P := fun content => (∀ e, content ≠ .org e) ∧ ∀ e, content ≠ .orgh e)
    (fun source hsource _ _ _ hcontent =>
      SourceLine.content_ne_org hcontent (hplain source hsource).1 (hplain source hsource).2)
    (by simp)

end InlineBlock.MadeOf

/-- **A block that is assembled** without a problem. -/
theorem inlined_of_assemble {lines : List SourceLine} (hblock : d.blocks[inline.2]? = some b)
    (hmade : b.MadeOf library lines) (horigin : inline.1 = (b.origin % 2 ^ 32).toNat)
    (h : (assemble d.scopes (.cog b.origin) b.lines limit t).problems = []) :
    Inlined library d lines inline b (assemble d.scopes (.cog b.origin) b.lines limit t).bytes := by
  obtain ⟨done, final, table, hrun, hdone, hlength⟩ := assemble_run h hmade.content_ne_align
  generalize (assemble d.scopes (.cog b.origin) b.lines limit t).bytes = code at hlength
  have hobject : (code.length : Int) = final.object := hlength.trans (Int.sub_zero _)
  have ha : ∀ l ∈ done, l.line.content ≠ .align 0 :=
    fun l hl => hmade.content_ne_align l.line (hdone ▸ List.mem_map_of_mem hl)
  obtain ⟨converted, last, -, hlast, hlines⟩ := hmade.lines_eq
  have hends := hdone.trans hlines
  have hge : 4 ≤ code.length := by
    have := (hrun.returns ha hends hlast).1
    omega
  have hresumes : Resumes b.origin (inlineBytes inline.1 code) code ↔
      0 ≤ b.origin ∧ b.origin < 2 ^ 29 ∧ 4 ∣ code.length ∧ code.length ≤ 2 ^ 31 := by
    rw [horigin]
    exact resumes_iff hge
  refine ⟨hblock, hmade, horigin, hge, ⟨done, final, table, hrun, hdone, hobject, fun g hg => ?_⟩,
    hresumes, fun hplain => ?_⟩
  · rw [← hrun.dvd_object_iff ha hends hlast hg, ← hobject]
    omega
  · obtain ⟨hdvd, hle⟩ := hrun.dvd_object_of_ne ha hends hlast
      fun l hl => hmade.content_ne_org hplain l.line (hdone ▸ List.mem_map_of_mem hl)
    have hlongs : 4 ∣ code.length := by omega
    -- the bound on the code bounds the origin, since there is code
    refine ⟨hlongs, by omega, hresumes.trans ⟨fun hread => hread.1, fun hnonneg => ?_⟩⟩
    exact ⟨hnonneg, by omega, hlongs, by omega⟩

/-- **Blocks of assembly code in an image.**  In a compilation that gives an image, every block that is
written in a method has its instruction, one for one and in order, and its code behaves as `Inlined` says.
The instructions of the methods in the table stand in the image with the code of their blocks. -/
theorem compile_inlineBlocks {config : Config} {library : Library} {tree : ObjectTree}
    {image : ObjectImage} (h : (compile config library tree).image = some image) :
    ∃ (p : Parts) (d : Draft),
      Compile.parts config library tree.nodes (Draft.initial tree.name) = .ok p d ∧
      List.Forall₂ (fun decl m => List.Forall₂ (fun lines inline => ∃ b,
            Inlined library d lines inline b ((p.resolution config d).block inline.2))
          (Statement.assembliesAll decl.body) (Listing.inlines (Command.body m.body).listing))
        tree.methodDecls p.methods ∧
      ∀ m ∈ p.table config, ∀ inline ∈ Listing.inlines (Command.body m.body).listing, ∃ offset,
        StandsAt (inlineBytes inline.1 ((p.resolution config d).block inline.2)) image.bytes offset := by
  obtain ⟨p, d, hparts, hok, hbuild⟩ := compile_eq_built h
  obtain ⟨layouts, hlaid⟩ := buildImage_eq_ok hbuild
  refine ⟨p, d, hparts, ?_, fun m hm inline hi => hlaid.inline_at hm hi⟩
  refine (parts_inlineBlocks hparts hok).imp fun decl m hblocks => hblocks.imp ?_
  rintro lines inline ⟨b, hblock, hmade, horigin⟩
  obtain ⟨t, hclean, hcode⟩ := Parts.block_code hbuild hblock
  rw [hcode]
  exact ⟨b, inlined_of_assemble hblock hmade horigin hclean⟩

/-- A line of assembly code with numbers behind its mnemonic. -/
def SourceLine.withNumbers (mnemonic : String) (numbers : List Int64) : SourceLine where
  mnemonic := some ⟨⟨mnemonic⟩, {}⟩
  operands := numbers.map fun v => { value := .literal {} (Literal.ofInt v) }

/-- An object with one method. -/
def objectWithBody (body : List Statement) : ObjectTree where
  name := "t"
  nodes := [.method { isPublic := true, name := ⟨⟨"main"⟩, {}⟩, body }]

/-- A block in a loop that begins at register `$10`, and a block without an origin. -/
def blocksInLoop : ObjectTree := objectWithBody
  [.repeatLoop (some (.literal {} (Literal.ofInt 3)))
      [.assembly {} [.withNumbers "ORG" [0x10], .withNumbers "LONG" [7]]],
    .assembly {} [.withNumbers "NOP" []]]

/-- Both blocks stand in the image behind their instructions. -/
theorem compile_inlineBlocks_loop :
    ∃ image, (compile {} {} blocksInLoop).image = some image ∧
      image.bytes = [8, 0, 0, 0x80, 0, 0, 0, 0, 0xA4, 0x15, 13] ++
        [0x28, 0x10, 1, 7, 0, 0, 0, 0x2D, 0, 0x64, 0xFD] ++ [0x16, 0x73] ++
        [0x28, 0, 1, 0, 0, 0, 0, 0x2D, 0, 0x64, 0xFD] ++ [4] ∧
      ∃ (p : Parts) (d : Draft),
        Compile.parts {} {} blocksInLoop.nodes (Draft.initial blocksInLoop.name) = .ok p d ∧
        List.Forall₂ (fun decl m => List.Forall₂ (fun lines inline => ∃ b,
              Inlined {} d lines inline b ((p.resolution {} d).block inline.2))
            (Statement.assembliesAll decl.body) (Listing.inlines (Command.body m.body).listing))
          blocksInLoop.methodDecls p.methods ∧
        ∀ m ∈ p.table {}, ∀ inline ∈ Listing.inlines (Command.body m.body).listing, ∃ offset,
          StandsAt (inlineBytes inline.1 ((p.resolution {} d).block inline.2)) image.bytes offset := by
  have hbytes : (compile {} {} blocksInLoop).image.map ObjectImage.bytes =
      some ([8, 0, 0, 0x80, 0, 0, 0, 0, 0xA4, 0x15, 13] ++
        [0x28, 0x10, 1, 7, 0, 0, 0, 0x2D, 0, 0x64, 0xFD] ++ [0x16, 0x73] ++
        [0x28, 0, 1, 0, 0, 0, 0, 0x2D, 0, 0x64, 0xFD] ++ [4]) := by decide +kernel
  obtain ⟨image, himage, hbytes⟩ := Option.map_eq_some_iff.mp hbytes
  exact ⟨image, himage, hbytes, compile_inlineBlocks himage⟩

/-- A block with a byte in the hub in front of the instruction that returns, and one whose origin is below
0. -/
def misreadBlocks : ObjectTree := objectWithBody
  [.assembly {} [.withNumbers "ORGH" [], .withNumbers "BYTE" [1]],
    .assembly {} [.withNumbers "ORG" [-1]]]

/-- **Blocks that are not read back.**  Of the five bytes of the first block four are taken as its code,
and the interpreter goes on in the middle of an instruction.  The second block is taken to begin at
`$1FFFFFFF`. -/
theorem inline_misread :
    (compile {} {} misreadBlocks).image.map ObjectImage.bytes =
        some ([8, 0, 0, 0x80, 0, 0, 0, 0] ++ [0x28, 0, 0, 1, 0x2D, 0, 0x64, 0xFD] ++
          [0x28, 0xFF, 0xFF, 0xFF, 0xFF, 0, 0x2D, 0, 0x64, 0xFD] ++ [4]) ∧
      decode ([0x28, 0, 0, 1, 0x2D, 0, 0x64, 0xFD] ++ [4]) =
        some (.inline 0 [1, 0x2D, 0, 0x64], [0xFD, 4]) ∧
      decode ([0x28, 0xFF, 0xFF, 0xFF, 0xFF, 0, 0x2D, 0, 0x64, 0xFD] ++ [4]) =
        some (.inline 0x1FFFFFFF [0x2D, 0, 0x64, 0xFD], [4]) := by
  decide +kernel

end Propeller
