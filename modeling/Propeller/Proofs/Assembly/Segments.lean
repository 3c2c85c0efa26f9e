import Propeller.Proofs.Assembly.Placement

/-!
# Assembly — segments

A pass places lines one behind the other.  A line of code for a cog belongs to a segment, which begins
at an `ORG` and ends at the next `ORG` or `ORGH`; the limit that code must not pass is that of the
segment.  Lines move two counters, the logical address and the offset in the image, and not all of them
move both: room without contents has no bytes in the image, and a new origin changes the address alone.

* `Content.Advances`: the four ways in which a line moves the counters.
* `Run`: what a pass has done when it comes to a line; `place_run`: a pass that succeeds is a run.
* `lastSegment`: the segment that code stands in behind given lines.
* `Behind`, `Run.behind`: what the lines of a run say about the state behind them.
* `place_sound`: every line of a pass is where the segment, the mode and the lines before it allow.
* `orgf_exact_iff`: filling up to an address reaches it exactly when the address is in the segment.
-/

namespace Propeller

variable {done before : List PlacedLine} {c next : Cursor} {t t' : Addresses} {lines : List AsmLine}
  {ps : List Placement} {moved : Bool} {start : Start} {line : AsmLine} {env : Environment}
  {p : Placement}

/-! ### What one line does -/

namespace Content

/-- How a line moves the counters: it sets the address, in a cog or in the hub; it leaves room in a
cog, of which the image has nothing; or it goes on behind bytes that are skipped, in memory and in the
image alike. -/
inductive Advances (env : Environment) (c : Cursor) : Content → Placement → Cursor → Prop where
  | org {operand : Option Expression} {origin : Int} (value : evalOr env 0 operand = .ok origin)
      (range : 0 ≤ origin ∧ origin < lutLimit) :
      Advances env c (.org operand) ⟨origin * 4, c.object, false, 0⟩ (c.org origin)
  | orgh {operand : Option Expression} {address : Int}
      (value : evalOr env c.object operand = .ok address)
      (range : 0 ≤ address ∧ address < hubLimit) :
      Advances env c (.orgh operand) ⟨address, c.object, true, 0⟩
        { c with hub := true, limit := hubLimit, address }
  | res {count : Expression} {longs : Int64} (cog : c.hub = false)
      (value : count.evalInt env = .ok longs) :
      Advances env c (.res count) ⟨c.address, c.object, false, 0⟩
        { c with address := c.address + 4 * max 0 longs.toInt }
  | forward {content : Content} {skipped : Int} {size : Nat} (org : ∀ e, content ≠ .org e)
      (orgh : ∀ e, content ≠ .orgh e) (res : ∀ e, content ≠ .res e) (nonneg : 0 ≤ skipped) :
      Advances env c content ⟨c.address + skipped, c.object + skipped, c.hub, size⟩
        (c.skip (skipped + size))

variable {content : Content} {env : Environment} {c next : Cursor} {p : Placement}

/-- A line that is placed ends before the limit. -/
theorem place_le_limit (h : content.place env c = .ok (p, next)) : next.address ≤ next.limit := by
  obtain ⟨start, -, h⟩ := bind_eq_ok h
  obtain ⟨⟨size, stored⟩, -, h⟩ := bind_eq_ok h
  simp only at h
  split at h
  · next hle =>
    cases h
    exact hle
  · split at h <;> cases h

/-- Cog code has its instructions at longs. -/
theorem place_instruction {i : Instruction} (h : (Content.instruction i).place env c = .ok (p, next))
    (hcog : p.hub = false) : 4 ∣ p.address := by
  obtain ⟨start, size, stored, -, he, rfl, -⟩ := place_eq_ok h
  simp only [extent] at he
  split at he
  · cases he
  · next haligned =>
    apply Int.dvd_of_emod_eq_zero
    simpa [show start.hub = false from hcog] using haligned

/-- A line that neither sets the address nor reserves room begins behind what it skips. -/
theorem place_forward {skipped : Int} (org : ∀ e, content ≠ .org e) (orgh : ∀ e, content ≠ .orgh e)
    (res : ∀ e, content ≠ .res e) (nonneg : 0 ≤ skipped)
    (hm : content.moveTo env c = .ok (c.skip skipped)) (h : content.place env c = .ok (p, next)) :
    content.Advances env c p next := by
  obtain ⟨start, size, stored, hs, he, rfl, rfl⟩ := place_eq_ok h
  rw [hm] at hs
  cases hs
  have hstored : stored = true := by
    cases content with
    | res count => exact absurd rfl (res count)
    | instruction i =>
      simp only [extent] at he
      split at he
      · cases he
      · cases he
        rfl
    | data d =>
      simp only [extent] at he
      split at he
      · cases he
        rfl
      · cases he
    | _ =>
      cases he
      rfl
  subst hstored
  have hnext : ({ c.skip skipped with
      address := (c.skip skipped).address + size
      object := (c.skip skipped).object + size } : Cursor) = c.skip (skipped + size) := by
    simp only [Cursor.skip, Int.add_assoc]
  simp only [if_true]
  rw [hnext]
  exact .forward org orgh res nonneg

/-- Lines are not placed below address 0 when the code is not. -/
theorem Advances.nonneg (h : content.Advances env c p next) (hc : 0 ≤ c.address) :
    0 ≤ p.address := by
  cases h with
  | org value range => exact Int.mul_nonneg range.1 (by decide)
  | orgh value range => exact range.1
  | res cog value => exact hc
  | forward org orgh res nonneg => exact Int.add_nonneg hc nonneg

/-- **One line.**  Placing a line moves the counters in one of the four ways. -/
theorem place_advances (ha : content ≠ .align 0) (h : content.place env c = .ok (p, next)) :
    content.Advances env c p next := by
  have hstay : c = c.skip 0 := by simp [Cursor.skip]
  cases content with
  | org operand =>
    obtain ⟨start, size, stored, hs, he, rfl, rfl⟩ := place_eq_ok h
    cases he
    obtain ⟨origin, hv, hs⟩ := bind_eq_ok hs
    split at hs
    · next hrange =>
      cases hs
      simpa [Cursor.org] using Advances.org hv hrange
    · cases hs
  | orgh operand =>
    obtain ⟨start, size, stored, hs, he, rfl, rfl⟩ := place_eq_ok h
    cases he
    obtain ⟨address, hv, hs⟩ := bind_eq_ok hs
    split at hs
    · next hrange =>
      cases hs
      simpa using Advances.orgh hv hrange
    · cases hs
  | res count =>
    obtain ⟨start, size, stored, hs, he, rfl, rfl⟩ := place_eq_ok h
    cases hs
    simp only [extent] at he
    split at he
    · cases he
    · next hcog =>
      obtain ⟨longs, hv, he⟩ := bind_eq_ok he
      split at he
      · cases he
      · cases he
        have hcog : c.hub = false := by simpa using hcog
        have hsize : (((max 0 longs.toInt).toNat * 4 : Nat) : Int) = 4 * max 0 longs.toInt := by
          omega
        simp only [hcog, hsize]
        simpa [hcog] using Advances.res hcog (mapError_eq_ok hv)
  | orgf target =>
    obtain ⟨start, size, stored, hs, -, -, -⟩ := place_eq_ok h
    have hm := hs
    simp only [moveTo] at hs
    split at hs
    · cases hs
    · obtain ⟨t, -, hs⟩ := bind_eq_ok hs
      split at hs
      · cases hs
      · cases hs
        exact place_forward (by simp) (by simp) (by simp)
          (Int.emod_nonneg _ (by decide)) hm h
  | align size =>
    have hsize : (size : Int) ≠ 0 := by
      intro hs
      exact ha (by rw [Int.natCast_eq_zero.mp hs])
    exact place_forward (by simp) (by simp) (by simp) (Int.emod_nonneg _ hsize) rfl h
  | fit limit =>
    obtain ⟨start, size, stored, hs, -, -, -⟩ := place_eq_ok h
    have hm := hs
    simp only [moveTo] at hs
    split at hs
    · cases hs
    · obtain ⟨l, -, hs⟩ := bind_eq_ok hs
      split at hs
      · cases hs
      · cases hs
        exact place_forward (by simp) (by simp) (by simp) (Int.le_refl 0) (hstay ▸ hm) h
  | empty | instruction _ | data _ | file _ =>
    exact place_forward (by simp) (by simp) (by simp) (Int.le_refl 0) (congrArg Except.ok hstay) h

end Content

/-! ### Runs of a pass -/

/-- A line that a pass has placed: what names and labels stood for at that moment, and where the line
is. -/
structure PlacedLine where
  line : AsmLine
  env : Environment
  placement : Placement

/-- What a pass has done: the lines that it has placed, and the state and the table that it goes on
with. -/
inductive Run (scopes : Scopes) (start : Start) (initial : Addresses) :
    List PlacedLine → Cursor → Addresses → Prop where
  | nil : Run scopes start initial [] (.ofStart start) initial
  | snoc {done : List PlacedLine} {c next : Cursor} {t t' : Addresses} {line : AsmLine}
      {p : Placement} {moved : Bool} (before : Run scopes start initial done c t)
      (here : line.content.place ⟨scopes, t⟩ c = .ok (p, next))
      (label : line.record p t = .ok (t', moved)) :
      Run scopes start initial (done ++ [⟨line, ⟨scopes, t⟩, p⟩]) next t'

section

variable {scopes : Scopes} {start : Start} {initial : Addresses}

/-- A run goes on with a pass over further lines. -/
theorem Run.place (run : Run scopes start initial done c t)
    (h : (place scopes c lines t).outcome = .ok (ps, moved)) :
    ∃ more next, Run scopes start initial (done ++ more) next (place scopes c lines t).addresses ∧
      more.map PlacedLine.line = lines ∧ more.map PlacedLine.placement = ps := by
  induction lines generalizing done c t ps moved with
  | nil =>
    cases h
    exact ⟨[], c, by rwa [List.append_nil], rfl, rfl⟩
  | cons line lines ih =>
    obtain ⟨p, next, t', moves, qs, others, hp, hr, ho, haddresses, rfl, -⟩ := place_cons_eq_ok h
    obtain ⟨more, final, hrun, hlines, hps⟩ := ih (run.snoc hp hr) ho
    refine ⟨⟨line, ⟨scopes, t⟩, p⟩ :: more, final, ?_, ?_, ?_⟩
    · rw [haddresses]
      simpa using hrun
    · rw [List.map_cons, hlines]
    · rw [List.map_cons, hps]

/-- **A pass is a run.** -/
theorem place_run (h : (place scopes (.ofStart start) lines initial).outcome = .ok (ps, moved)) :
    ∃ done next, Run scopes start initial done next
        (place scopes (.ofStart start) lines initial).addresses ∧
      done.map PlacedLine.line = lines ∧ done.map PlacedLine.placement = ps := by
  simpa using Run.nil.place h

/-- Every line of a run was placed when a run of the lines before it had come to it. -/
theorem Run.split {after : List PlacedLine} {l : PlacedLine} (run : Run scopes start initial done c t)
    (h : done = before ++ l :: after) :
    ∃ here next t₀ t₁ moved, Run scopes start initial before here t₀ ∧
      l.line.content.place ⟨scopes, t₀⟩ here = .ok (l.placement, next) ∧
      l.line.record l.placement t₀ = .ok (t₁, moved) ∧ l.env = ⟨scopes, t₀⟩ := by
  induction run generalizing after with
  | nil => simp at h
  | @snoc done c next t t' line p moved earlier here label ih =>
    rcases List.eq_nil_or_concat after with rfl | ⟨after, last, rfl⟩
    · obtain ⟨rfl, hl⟩ := List.append_inj' h rfl
      cases hl
      exact ⟨c, next, t, t', moved, earlier, here, label, rfl⟩
    · rw [List.concat_eq_append, ← List.cons_append, ← List.append_assoc] at h
      exact ih (List.append_inj' h rfl).1

end

/-! ### Segments -/

/-- A stretch of code for a cog: the long that it begins at, and the offset in the image that it
begins at. -/
structure Segment where
  origin : Int
  object : Int
deriving DecidableEq

/-- The long that the code of a segment ends at or before. -/
def Segment.limit (g : Segment) : Int := if g.origin < 0x200 then 0x1F8 else 0x400

/-- The segment that code starts in, if it starts in a cog. -/
def Start.segment : Start → Option Segment
  | .hub _      => none
  | .cog origin => some ⟨origin, 0⟩

/-- The segment behind a line, by the segment before it. -/
def PlacedLine.segmentBehind (current : Option Segment) (l : PlacedLine) : Option Segment :=
  match l.line.content with
  | .org operand => (evalOr l.env 0 operand).toOption.map fun origin => ⟨origin, l.placement.object⟩
  | .orgh _      => none
  | _            => current

/-- The segment that code stands in behind lines; there is none in the hub. -/
def lastSegment (start : Start) (done : List PlacedLine) : Option Segment :=
  done.foldl PlacedLine.segmentBehind start.segment

@[simp]
theorem lastSegment_nil (start : Start) : lastSegment start [] = start.segment := rfl

@[simp]
theorem lastSegment_snoc (start : Start) (done : List PlacedLine) (l : PlacedLine) :
    lastSegment start (done ++ [l]) = l.segmentBehind (lastSegment start done) := by
  simp [lastSegment]

/-- The bytes of memory that a line takes.  Room without contents takes none of the image. -/
def PlacedLine.room (l : PlacedLine) : Int :=
  match l.line.content with
  | .res count => 4 * max 0 (((count.evalInt l.env).toOption.map Int64.toInt).getD 0)
  | _          => l.placement.size

/-- A line goes to an address of the hub that it names. -/
def PlacedLine.setsHub (l : PlacedLine) : Bool :=
  match l.line.content with
  | .orgh (some _) => true
  | _              => false

/-- Where a pass may start: at an offset of the image, or at a long of a cog or of its lookup
memory. -/
def Start.Valid : Start → Prop
  | .hub object => 0 ≤ object
  | .cog origin => 0 ≤ origin ∧ origin < 0x400

/-- What the lines so far say about the state behind them. -/
structure Behind (start : Start) (done : List PlacedLine) (c : Cursor) : Prop where
  starts : start.object ≤ c.object
  /-- No line reaches beyond the offset. -/
  ends : ∀ l ∈ done, l.placement.object + l.placement.size ≤ c.object
  hub : lastSegment start done = none → c.hub = true ∧ c.limit = hubLimit
  cog : ∀ g, lastSegment start done = some g → c.hub = false ∧ c.limit = g.limit * 4
  /-- A segment takes no more of the image than of the memory behind its origin. -/
  within : ∀ g, lastSegment start done = some g →
    c.object - g.object ≤ c.address - g.origin * 4
  /-- Within a segment the address and the offset move apart by whole longs. -/
  apart : ∀ g, lastSegment start done = some g → 4 ∣ c.address - (c.object - g.object)
  nonneg : start.Valid → 0 ≤ c.address
  /-- As long as no line names an address of the hub, the address there is the offset. -/
  plain : (∀ l ∈ done, l.setsHub = false) → lastSegment start done = none → c.address = c.object

theorem Behind.ofStart (start : Start) : Behind start [] (.ofStart start) where
  starts := by cases start <;> exact Int.le_refl _
  ends := by simp
  hub := by cases start <;> simp [Start.segment, Cursor.ofStart]
  cog := by
    cases start with
    | hub object => simp [Start.segment]
    | cog origin =>
      rintro g ⟨⟩
      simp only [Cursor.ofStart, Cursor.org, Segment.limit, lutLimit, cogLimit, true_and]
      split <;> split <;> omega
  within := by
    cases start with
    | hub object => simp [Start.segment]
    | cog origin =>
      rintro g ⟨⟩
      simp [Cursor.ofStart, Cursor.org]
  apart := by
    cases start with
    | hub object => simp [Start.segment]
    | cog origin =>
      rintro g ⟨⟩
      simp [Cursor.ofStart, Cursor.org]
  nonneg := by
    intro hv
    cases start with
    | hub object => exact hv
    | cog origin => exact Int.mul_nonneg hv.1 (by decide)
  plain := by cases start <;> simp [Start.segment, Cursor.ofStart]

section

variable {start : Start} {done : List PlacedLine} {env : Environment} {c next : Cursor}
  {line : AsmLine} {p : Placement}

/-- In a cog there is a segment, -/
theorem Behind.exists_segment (hf : Behind start done c) (hcog : c.hub = false) :
    ∃ g, lastSegment start done = some g := by
  cases hseg : lastSegment start done with
  | none =>
    rw [(hf.hub hseg).1] at hcog
    cases hcog
  | some g => exact ⟨g, rfl⟩

/-- and in the hub there is none. -/
theorem Behind.segment_none (hf : Behind start done c) (hhub : c.hub = true) :
    lastSegment start done = none := by
  cases hseg : lastSegment start done with
  | none => rfl
  | some g =>
    rw [(hf.cog g hseg).1] at hhub
    cases hhub

/-- Behind a line that is not one of these the segment is the one before it. -/
theorem PlacedLine.segmentBehind_of_ne (org : ∀ e, line.content ≠ .org e)
    (orgh : ∀ e, line.content ≠ .orgh e) (current : Option Segment) :
    PlacedLine.segmentBehind current ⟨line, env, p⟩ = current := by
  unfold PlacedLine.segmentBehind
  split
  · next e he => exact absurd he (org e)
  · next e he => exact absurd he (orgh e)
  · rfl

/-- Offsets go on behind the line. -/
theorem Behind.ends_snoc (hf : Behind start done c) (ha : line.content ≠ .align 0)
    (h : line.content.place env c = .ok (p, next)) :
    ∀ l ∈ done ++ [⟨line, env, p⟩], l.placement.object + l.placement.size ≤ next.object := by
  obtain ⟨hobj, hnext⟩ := Content.place_object ha h
  intro l hl
  rcases List.mem_append.mp hl with hl | hl
  · have := hf.ends l hl
    omega
  · obtain rfl := List.mem_singleton.mp hl
    exact Int.le_of_eq hnext.symm

/-- **One more line.** -/
theorem Behind.snoc (hf : Behind start done c) (ha : line.content ≠ .align 0)
    (h : line.content.place env c = .ok (p, next)) :
    Behind start (done ++ [⟨line, env, p⟩]) next := by
  have hends := hf.ends_snoc ha h
  have hstarts : start.object ≤ next.object := by
    have := Content.place_object ha h
    have := hf.starts
    omega
  have hadv := Content.place_advances ha h
  generalize hcontent : line.content = content at hadv
  cases hadv with
  | @org operand origin value range =>
    have hseg : lastSegment start (done ++ [⟨line, env, ⟨origin * 4, c.object, false, 0⟩⟩]) =
        some ⟨origin, c.object⟩ := by
      simp [PlacedLine.segmentBehind, hcontent, value]
    refine ⟨hstarts, hends, ?_, ?_, ?_, ?_, ?_, ?_⟩
    · simp [hseg]
    · rw [hseg]
      rintro g ⟨⟩
      simp only [Cursor.org, Segment.limit, lutLimit, cogLimit, true_and]
      split <;> split <;> omega
    · rw [hseg]
      rintro g ⟨⟩
      simp [Cursor.org]
    · rw [hseg]
      rintro g ⟨⟩
      simp [Cursor.org]
    · exact fun _ => Int.mul_nonneg range.1 (by decide)
    · simp [hseg]
  | @orgh operand address value range =>
    have hseg : lastSegment start (done ++ [⟨line, env, ⟨address, c.object, true, 0⟩⟩]) = none := by
      simp [PlacedLine.segmentBehind, hcontent]
    refine ⟨hstarts, hends, fun _ => ⟨rfl, rfl⟩, ?_, ?_, ?_, fun _ => range.1, ?_⟩
    · simp [hseg]
    · simp [hseg]
    · simp [hseg]
    · intro hplain _
      cases operand with
      | none =>
        cases value
        rfl
      | some e =>
        have := hplain _ (List.mem_append_right _ (List.mem_singleton_self _))
        simp [PlacedLine.setsHub, hcontent] at this
  | @res count longs cog value =>
    have hseg : lastSegment start (done ++ [⟨line, env, ⟨c.address, c.object, false, 0⟩⟩]) =
        lastSegment start done := by
      rw [lastSegment_snoc, PlacedLine.segmentBehind_of_ne (by simp [hcontent]) (by simp [hcontent])]
    refine ⟨hstarts, hends, ?_, ?_, ?_, ?_, ?_, ?_⟩
    · rw [hseg]
      exact hf.hub
    · rw [hseg]
      exact hf.cog
    · rw [hseg]
      intro g hg
      have := hf.within g hg
      simp only
      omega
    · rw [hseg]
      intro g hg
      have := hf.apart g hg
      simp only
      omega
    · intro hv
      have := hf.nonneg hv
      simp only
      omega
    · rw [hseg]
      intro _ hnone
      -- there is no room to reserve in the hub
      rw [(hf.hub hnone).1] at cog
      cases cog
  | @forward _ skipped size org orgh res nonneg =>
    have hseg : lastSegment start
        (done ++ [⟨line, env, ⟨c.address + skipped, c.object + skipped, c.hub, size⟩⟩]) =
        lastSegment start done := by
      rw [lastSegment_snoc, PlacedLine.segmentBehind_of_ne (hcontent ▸ org) (hcontent ▸ orgh)]
    refine ⟨hstarts, hends, ?_, ?_, ?_, ?_, ?_, ?_⟩
    · rw [hseg]
      exact hf.hub
    · rw [hseg]
      exact hf.cog
    · rw [hseg]
      intro g hg
      have := hf.within g hg
      simp only [Cursor.skip]
      omega
    · rw [hseg]
      intro g hg
      have := hf.apart g hg
      simp only [Cursor.skip]
      omega
    · intro hv
      have := hf.nonneg hv
      simp only [Cursor.skip]
      omega
    · rw [hseg]
      intro hplain hnone
      have := hf.plain (fun l hl => hplain l (List.mem_append_left _ hl)) hnone
      simp only [Cursor.skip]
      omega

end

/-- **Every run.**  What the lines say about the state holds behind each of them. -/
theorem Run.behind {scopes : Scopes} {initial : Addresses} (run : Run scopes start initial done c t)
    (ha : ∀ l ∈ done, l.line.content ≠ .align 0) : Behind start done c := by
  induction run with
  | nil => exact .ofStart start
  | snoc _ here _ ih =>
    have hf := ih fun l hl => ha l (List.mem_append_left _ hl)
    exact hf.snoc (ha _ (List.mem_append_right _ (List.mem_singleton_self _))) here

/-! ### Where the lines of a pass are -/

/-- What holds of a line of a pass, given the lines before it. -/
structure PlacedLine.Sound (start : Start) (before : List PlacedLine) (l : PlacedLine) : Prop where
  /-- The line is in the image behind where the code starts, -/
  starts : start.object ≤ l.placement.object
  /-- and behind the bytes of every line before it. -/
  ordered : ∀ q ∈ before, q.placement.object + q.placement.size ≤ l.placement.object
  /-- Code for a cog is in the memory of its segment, with the room that it reserves. -/
  cog : l.placement.hub = false → ∃ g, lastSegment start (before ++ [l]) = some g ∧
    0 ≤ l.placement.address ∧ l.placement.address + l.room ≤ g.limit * 4
  /-- Its instructions and its labels are at longs. -/
  aligned : l.placement.hub = false →
    (∃ i, l.line.content = .instruction i) ∨ l.line.label.isSome → 4 ∣ l.placement.address
  /-- Code for the hub is in the hub. -/
  hub : l.placement.hub = true →
    0 ≤ l.placement.address ∧ l.placement.address + l.placement.size ≤ 0x100000
  /-- Until a line names an address of the hub, the address there is the offset. -/
  plain : l.placement.hub = true → (∀ q ∈ before ++ [l], q.setsHub = false) →
    l.placement.address = l.placement.object

/-- The next line goes behind the memory that a line takes; in the hub that is what it takes of the
image. -/
theorem PlacedLine.room_eq (ha : line.content ≠ .align 0) (h : line.content.place env c = .ok (p, next)) :
    next.hub = p.hub ∧ next.address = p.address + PlacedLine.room ⟨line, env, p⟩ ∧
      (p.hub = true → PlacedLine.room ⟨line, env, p⟩ = p.size) := by
  have hadv := Content.place_advances ha h
  generalize hcontent : line.content = content at hadv
  cases hadv with
  | org value range => simp [PlacedLine.room, hcontent, Cursor.org]
  | orgh value range => simp [PlacedLine.room, hcontent]
  | res cog value => simp [PlacedLine.room, hcontent, value, cog]
  | @forward _ skipped size org orgh res nonneg =>
    have hroom : PlacedLine.room ⟨line, env, ⟨c.address + skipped, c.object + skipped, c.hub, size⟩⟩ =
        size := by
      unfold PlacedLine.room
      split
      · next count he => exact absurd (hcontent.symm.trans he) (res count)
      · rfl
    rw [hroom]
    exact ⟨rfl, (Int.add_assoc ..).symm, fun _ => rfl⟩

/-- The label of a line of cog code is at a long. -/
theorem AsmLine.record_aligned (h : line.record p t = .ok (t', moved)) (hl : line.label.isSome)
    (hcog : p.hub = false) : 4 ∣ p.address := by
  unfold AsmLine.record at h
  split at h
  · next hnone => simp [hnone] at hl
  · split at h
    · cases h
    · next haligned =>
      apply Int.dvd_of_emod_eq_zero
      simpa [hcog] using haligned

/-- A line that is placed behind others is where they allow. -/
theorem Behind.sound (hf : Behind start before c) (hstart : start.Valid) (ha : line.content ≠ .align 0)
    (hplace : line.content.place env c = .ok (p, next)) (hrecord : line.record p t = .ok (t', moved)) :
    PlacedLine.Sound start before ⟨line, env, p⟩ := by
  have hn := hf.snoc ha hplace
  obtain ⟨hobj, hbytes⟩ := Content.place_object ha hplace
  obtain ⟨hmode, haddress, hroom⟩ := PlacedLine.room_eq ha hplace
  have hnonneg := (Content.place_advances ha hplace).nonneg (hf.nonneg hstart)
  have hlimit := Content.place_le_limit hplace
  constructor
  case starts => exact Int.le_trans hf.starts hobj
  case ordered => exact fun q hq => Int.le_trans (hf.ends q hq) hobj
  case cog =>
    intro hcog
    obtain ⟨g, hg⟩ := hn.exists_segment (hmode.trans hcog)
    refine ⟨g, hg, hnonneg, ?_⟩
    rw [← (hn.cog g hg).2, ← haddress]
    exact hlimit
  case aligned =>
    rintro hcog (⟨i, hi⟩ | hl)
    · exact Content.place_instruction (hi ▸ hplace) hcog
    · exact AsmLine.record_aligned hrecord hl hcog
  case hub =>
    intro hhub
    refine ⟨hnonneg, ?_⟩
    rw [(hn.hub (hn.segment_none (hmode.trans hhub))).2, haddress, hroom hhub] at hlimit
    exact hlimit
  case plain =>
    intro hhub hplain
    have hsame := hn.plain hplain (hn.segment_none (hmode.trans hhub))
    rw [haddress, hroom hhub, hbytes] at hsame
    simp only
    omega

/-- **Where the lines of a pass are.**  Let a pass over lines succeed, from an offset of the image or
from a long of a cog.  It has placed them one after the other, and each of them is behind the bytes of
the lines before it; in the memory of its segment, with the room that it reserves, when it is code for a
cog, with instructions and labels at longs; in the hub otherwise, and there at the address that its
offset is, until a line names another one. -/
theorem place_sound {scopes : Scopes} {start : Start} {lines : List AsmLine} {initial : Addresses}
    {placements : List Placement} {moved : Bool} (hstart : start.Valid)
    (ha : ∀ line ∈ lines, line.content ≠ .align 0)
    (h : (place scopes (.ofStart start) lines initial).outcome = .ok (placements, moved)) :
    ∃ done final, Run scopes start initial done final
        (place scopes (.ofStart start) lines initial).addresses ∧
      done.map PlacedLine.line = lines ∧ done.map PlacedLine.placement = placements ∧
      ∀ before l after, done = before ++ l :: after → l.Sound start before := by
  obtain ⟨done, final, run, rfl, rfl⟩ := place_run h
  refine ⟨done, final, run, rfl, rfl, fun before l after hdone => ?_⟩
  obtain ⟨c, next, t₀, t₁, moves, hrun, hplace, hrecord, henv⟩ := run.split hdone
  have haligns : ∀ q ∈ done, q.line.content ≠ .align 0 := fun q hq =>
    ha q.line (List.mem_map_of_mem hq)
  obtain ⟨line, env, p⟩ := l
  subst hdone henv
  have hf := hrun.behind fun q hq => haligns q (List.mem_append_left _ hq)
  have hline := haligns _ (List.mem_append_right _ (.head _))
  exact hf.sound hstart hline hplace hrecord

/-- Code for a cog that reserves room at the end of its segment, and code for the hub behind it. -/
def cogThenHub : List AsmLine :=
  let plain : Instruction :=
    { condition := .always, mnemonic := default, operands := [], arguments := .bare,
      effects := .none }
  [{ content := .org (some (.int 0x1F0)) },
    { label := some 0, content := .instruction plain },
    { content := .res (.int 7) },
    { content := .orgh none },
    { content := .data { kind := .byte, values := [⟨{ value := .int 1 }, {}⟩] } },
    { content := .align 4 }]

theorem place_sound_cogThenHub :
    (place .initial (.ofStart (.hub 6)) cogThenHub ⟨#[none]⟩).outcome = .ok
        ([⟨0x7C0, 6, false, 0⟩, ⟨0x7C0, 6, false, 4⟩, ⟨0x7C4, 10, false, 0⟩, ⟨10, 10, true, 0⟩,
          ⟨10, 10, true, 1⟩, ⟨12, 12, true, 0⟩], true) ∧
      ∃ done final, Run .initial (.hub 6) ⟨#[none]⟩ done final
          (place .initial (.ofStart (.hub 6)) cogThenHub ⟨#[none]⟩).addresses ∧
        done.map PlacedLine.line = cogThenHub ∧
        ∀ before l after, done = before ++ l :: after → l.Sound (.hub 6) before := by
  have h : (place .initial (.ofStart (.hub 6)) cogThenHub ⟨#[none]⟩).outcome = .ok
      ([⟨0x7C0, 6, false, 0⟩, ⟨0x7C0, 6, false, 4⟩, ⟨0x7C4, 10, false, 0⟩, ⟨10, 10, true, 0⟩,
        ⟨10, 10, true, 1⟩, ⟨12, 12, true, 0⟩], true) := rfl
  have ha : ∀ line ∈ cogThenHub, line.content ≠ .align 0 := by simp [cogThenHub]
  obtain ⟨done, final, run, hlines, -, hsound⟩ :=
    place_sound (show Start.Valid (.hub 6) by simp [Start.Valid]) ha h
  exact ⟨h, done, final, run, hlines, hsound⟩

/-! ### Filling up to an address -/

/-- The bytes between the address and a long, of which 32 bits are kept. -/
def Cursor.fill (c : Cursor) (long : Int) : Int := (long * 4 - c.address) % 2 ^ 32

theorem Cursor.fill_eq {long : Int} (h : c.address ≤ long * 4) (hlt : long * 4 - c.address < 2 ^ 32) :
    c.fill long = long * 4 - c.address :=
  Int.emod_eq_of_lt (by omega) hlt

/-- Whatever is filled, the code goes on at a long. -/
theorem Cursor.dvd_address_add_fill (c : Cursor) (long : Int) : 4 ∣ c.address + c.fill long := by
  unfold Cursor.fill
  omega

/-- What becomes of a line that fills up to a long. -/
theorem Content.place_orgf {target : Expression} {long : Int64} (hcog : c.hub = false)
    (hv : target.evalInt env = .ok long) :
    (Content.orgf target).place env c =
      if long.toInt * 4 < c.address then .error (.orgfBackwards long.toInt (longAddress c.address))
      else if c.address + c.fill long.toInt ≤ c.limit then
        .ok (⟨c.address + c.fill long.toInt, c.object + c.fill long.toInt, false, 0⟩,
          c.skip (c.fill long.toInt))
      else .error (.overflow ((c.address + c.fill long.toInt - c.limit + 3) / 4)) := by
  have hmove : (Content.orgf target).moveTo env c =
      if long.toInt * 4 < c.address then .error (.orgfBackwards long.toInt (longAddress c.address))
      else .ok (c.skip (c.fill long.toInt)) := by
    simp only [moveTo, hcog, hv, mapError_ok, ok_bind, Bool.false_eq_true, if_false, Cursor.fill]
  unfold place
  rw [hmove]
  by_cases hback : long.toInt * 4 < c.address
  · rw [if_pos hback, if_pos hback]
    rfl
  · rw [if_neg hback, if_neg hback]
    simp only [ok_bind, extent, Cursor.skip, hcog]
    simp

/-- A label at a long is recorded. -/
theorem AsmLine.record_of_dvd (line : AsmLine) (t : Addresses) (h : 4 ∣ p.address) :
    ∃ t' moved, line.record p t = .ok (t', moved) := by
  unfold AsmLine.record
  split
  · exact ⟨t, false, rfl⟩
  · rw [if_neg fun hn => hn.2 (Int.emod_eq_zero_of_dvd h)]
    exact ⟨_, _, rfl⟩

/-- **Filling up to an address.**  A run has come to cog code, and the next line fills up to a long.  It
fails when the code is beyond the long already, and when the bytes to be filled, of which 32 bits are
kept, go beyond the limit of the segment.  Otherwise the run goes on, with the address and the offset
moved by that many bytes.  The address is then the one that was asked for exactly when that one is within
the limit. -/
theorem orgf_exact_iff {scopes : Scopes} {start : Start} {initial t : Addresses}
    {done : List PlacedLine} {c : Cursor} (run : Run scopes start initial done c t)
    (hstart : start.Valid) (ha : ∀ l ∈ done, l.line.content ≠ .align 0) (hcog : c.hub = false)
    {line : AsmLine} {target : Expression} (hl : line.content = .orgf target) {long : Int64}
    (hv : target.evalInt ⟨scopes, t⟩ = .ok long) :
    ((∃ e, line.content.place ⟨scopes, t⟩ c = .error e) ↔
        long.toInt * 4 < c.address ∨
          c.limit < c.address + (long.toInt * 4 - c.address) % 2 ^ 32) ∧
      (c.limit < long.toInt * 4 → long.toInt * 4 < 2 ^ 32 →
        ∃ e, line.content.place ⟨scopes, t⟩ c = .error e) ∧
      ∀ p next, line.content.place ⟨scopes, t⟩ c = .ok (p, next) →
        (∃ t', Run scopes start initial (done ++ [⟨line, ⟨scopes, t⟩, p⟩]) next t') ∧
        p.address = c.address + (long.toInt * 4 - c.address) % 2 ^ 32 ∧
        p.object - c.object = p.address - c.address ∧
        next.address = p.address ∧ next.object = p.object ∧
        (p.address = long.toInt * 4 ↔ long.toInt * 4 ≤ c.limit) := by
  rw [← Cursor.fill]
  have hf := run.behind ha
  have hnonneg := hf.nonneg hstart
  have hlimit : c.limit ≤ 0x1000 := by
    obtain ⟨g, hg⟩ := hf.exists_segment hcog
    rw [(hf.cog g hg).2, Segment.limit]
    split <;> decide
  have hplace := Content.place_orgf hcog hv
  rw [← hl] at hplace
  by_cases hback : long.toInt * 4 < c.address
  · rw [if_pos hback] at hplace
    simp [hplace, hback]
  rw [if_neg hback] at hplace
  -- the long is ahead, and what is filled is the distance to it unless that has more than 32 bits
  have hfill : long.toInt * 4 < 2 ^ 32 → c.address + c.fill long.toInt = long.toInt * 4 := by
    intro hlt
    rw [Cursor.fill_eq (by omega) (by omega)]
    omega
  by_cases hfits : c.address + c.fill long.toInt ≤ c.limit
  · rw [if_pos hfits] at hplace
    refine ⟨?_, ?_, ?_⟩
    · simp [hplace]
      omega
    · intro hbeyond hlt
      have := hfill hlt
      omega
    · intro p next h
      have hdvd := c.dvd_address_add_fill long.toInt
      rw [hplace] at h
      cases h
      obtain ⟨t', moved, hrecord⟩ := line.record_of_dvd (p := ⟨_, _, _, _⟩) t hdvd
      refine ⟨⟨t', run.snoc hplace hrecord⟩, rfl, ?_, rfl, rfl, ?_, ?_⟩
      · simp only
        omega
      · simp only
        omega
      · intro hle
        exact hfill (by omega)
  · rw [if_neg hfits] at hplace
    simp [hplace]
    omega

/-- The distance to a long that is farther than 2³² bytes away is cut off: the code goes on at long
`$14`, and nothing fails. -/
theorem orgf_exact_iff_wrapped :
    Run .initial (.hub 0) ⟨#[]⟩
        [⟨{ content := .org (some (.int 0x10)) }, ⟨.initial, ⟨#[]⟩⟩, ⟨0x40, 0, false, 0⟩⟩]
        ⟨0x40, 0, false, 0x7E0⟩ ⟨#[]⟩ ∧
      (Content.orgf (.int 0x40000014)).place ⟨.initial, ⟨#[]⟩⟩ ⟨0x40, 0, false, 0x7E0⟩ =
        .ok (⟨0x50, 0x10, false, 0⟩, ⟨0x50, 0x10, false, 0x7E0⟩) ∧
      ¬ (0x50 = (0x40000014 : Int) * 4) := by
  have run : Run .initial (.hub 0) ⟨#[]⟩
      [⟨{ content := .org (some (.int 0x10)) }, ⟨.initial, ⟨#[]⟩⟩, ⟨0x40, 0, false, 0⟩⟩]
      ⟨0x40, 0, false, 0x7E0⟩ ⟨#[]⟩ := Run.nil.snoc rfl rfl
  have hplace : (Content.orgf (.int 0x40000014)).place ⟨.initial, ⟨#[]⟩⟩ ⟨0x40, 0, false, 0x7E0⟩ =
      .ok (⟨0x50, 0x10, false, 0⟩, ⟨0x50, 0x10, false, 0x7E0⟩) := rfl
  have hl : ({ content := .orgf (.int 0x40000014) } : AsmLine).content = .orgf (.int 0x40000014) :=
    rfl
  obtain ⟨-, -, hplaced⟩ := orgf_exact_iff run (by simp [Start.Valid]) (by simp) rfl hl rfl
  obtain ⟨-, -, -, -, -, hexact⟩ := hplaced _ _ hplace
  exact ⟨run, hplace, fun he => absurd (hexact.mp he) (by decide)⟩

end Propeller
