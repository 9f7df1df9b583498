import SimplestWeb.Mongoose.SsiScan

/-!
# The buffer of the SSI scan

A tag that does not fit is given up (`tooLarge`), and the buffer is filled from the start while
the loop is still inside the tag. Two dashes may stand at its front then, or one, and on `>` the
loop looks at what is in front of them: `ssiEvents_overrun_iff` says for which files.
-/

namespace SimplestWeb.Mongoose

open SimplestWeb.Lib
open SimplestWeb.Lib.Buffer (Overrun)

variable {s s' : SsiScan} {evs : List SsiEvent} {size : Nat} {w file : Bytes} {ch : UInt8}

/-- There is a tag of `size - 2` bytes that is still open, and `->` or `-->` behind it. -/
def Overlong (size : Nat) (file : Bytes) : Prop :=
  ∃ pre t w post, file = pre ++ t ++ w ++ greater :: post ∧ OpenTag t ∧ t.length + 2 = size ∧
    (w = [dash] ∨ w = dashes)

/-- The buffer holds what came behind a tag that was too large. -/
structure Restarted (size : Nat) (file w : Bytes) : Prop where
  behind : ∃ pre t, file = pre ++ t ++ w ∧ OpenTag t ∧ t.length + 2 = size
  ne_nil : w ≠ []
  short : w.length ≤ btag.length
  noLess : less ∉ w

/-- Where the loop stands when it has read `file`. -/
structure Reading (size : Nat) (file : Bytes) (s : SsiScan) (w : Bytes) : Prop where
  pending : Pending s size w
  text : s.inSsiTag = false → w.length < size
  tag : s.inSsiTag = true →
    OpenTag w ∧ w.length + 2 ≤ size ∧ w <:+ file ∨ Restarted size file w

/-- Nothing has been read yet, or a tag has been closed. -/
theorem Reading.closed {buf : Bytes} (h : buf.length = size) (hsize : 0 < size) :
    Reading size file { buf := buf } [] :=
  ⟨⟨h, rfl, rfl⟩, fun _ => hsize, fun htag => absurd htag Bool.false_ne_true⟩

theorem Reading.text_of {ws : Bytes} (h : Pending s size ws) (htag : s.inSsiTag = false)
    (hroom : ws.length < size) : Reading size file s ws :=
  ⟨h, fun _ => hroom, fun htrue => by rw [htag] at htrue; cases htrue⟩

theorem Reading.tag_of (h : Pending s size w) (htag : s.inSsiTag = true)
    (hw : OpenTag w ∧ w.length + 2 ≤ size ∧ w <:+ file ∨ Restarted size file w) :
    Reading size file s w := by
  refine ⟨h, fun hfalse => ?_, fun _ => hw⟩
  rw [htag] at hfalse
  cases hfalse

theorem Reading.ne_nil (h : Reading size file s w) (htag : s.inSsiTag = true) : w ≠ [] := by
  rcases h.tag htag with ⟨hopen, -, -⟩ | hrestarted
  · exact hopen.ne_nil
  · exact hrestarted.ne_nil

/-- What a round does, in a tag that is neither closed nor left open in front of the buffer. -/
theorem Reading.step_inside (h : Reading size file s w) (htag : s.inSsiTag = true)
    (hsize : 8 ≤ size) (hch : StaysOpen w ch) :
    ∃ s' evs w', s.step ch = .ok (s', evs) ∧ Reading size (file ++ [ch]) s' w' := by
  have hbtag : btag.length = 5 := rfl
  have hne := h.ne_nil htag
  by_cases hleave : w.length = btag.length ∧ w ≠ btag
  · obtain ⟨s', hstep, hs', htag'⟩ :=
      h.pending.step_leave htag hch hleave.1 hleave.2 (by omega)
    refine ⟨s', [], _, hstep, Reading.text_of hs' htag' ?_⟩
    rw [List.length_append, List.length_singleton]
    omega
  · have hbegin : w.length = btag.length → w = btag := fun hlen =>
      Classical.byContradiction fun hno => hleave ⟨hlen, hno⟩
    rcases h.tag htag with ⟨hopen, hroom, hsuffix⟩ | hrestarted
    · by_cases hfull : w.length = size - 2
      · -- the tag is dropped, and `ch` is the first byte behind it
        obtain ⟨s', hstep, hs', htag'⟩ := h.pending.step_tooLarge htag hch hfull (by omega)
        obtain ⟨pre, rfl⟩ := hsuffix
        refine ⟨s', _, _, hstep, Reading.tag_of hs' htag' (Or.inr ⟨?_, ?_, ?_, ?_⟩)⟩
        · exact ⟨pre, w, rfl, hopen, by omega⟩
        · exact List.cons_ne_nil _ _
        · show 1 ≤ 5
          omega
        · intro hmem
          exact hch.1 (List.mem_singleton.mp hmem).symm
      · obtain ⟨s', hstep, hs', htag'⟩ := h.pending.step_tag htag hne hch hbegin (by omega)
        refine ⟨s', _, _, hstep, Reading.tag_of hs' htag' (Or.inl ⟨?_, ?_, ?_⟩)⟩
        · exact hopen.snoc hch hbegin
        · rw [List.length_append, List.length_singleton]
          omega
        · obtain ⟨pre, rfl⟩ := hsuffix
          exact ⟨pre, (List.append_assoc _ _ _).symm⟩
    · have hshort := hrestarted.short
      -- five bytes without a `<` are not `btag`, so that the tag would have been left
      have hless : w.length ≠ btag.length := fun hlen => by
        have hmem : less ∈ w := by
          rw [hbegin hlen]
          decide
        exact hrestarted.noLess hmem
      obtain ⟨s', hstep, hs', htag'⟩ := h.pending.step_tag htag hne hch hbegin (by omega)
      obtain ⟨pre, t, rfl, ht, hlen⟩ := hrestarted.behind
      refine ⟨s', _, _, hstep, Reading.tag_of hs' htag' (Or.inr ⟨?_, ?_, ?_, ?_⟩)⟩
      · exact ⟨pre, t, List.append_assoc _ _ _, ht, hlen⟩
      · exact List.append_ne_nil_of_left_ne_nil hne _
      · rw [List.length_append, List.length_singleton]
        omega
      · intro hmem
        rcases List.mem_append.mp hmem with hmem | hmem
        · exact hrestarted.noLess hmem
        · exact hch.1 (List.mem_singleton.mp hmem).symm

/-- A round goes well unless the file is overlong now. -/
theorem Reading.step (h : Reading size file s w) (hsize : 8 ≤ size) (ch : UInt8) :
    (∃ s' evs w', s.step ch = .ok (s', evs) ∧ Reading size (file ++ [ch]) s' w') ∨
      (s.step ch = .error .overrun ∧ Overlong size (file ++ [ch])) := by
  by_cases hless : ch = less
  · subst hless
    obtain ⟨s', hstep, hs', htag⟩ := h.pending.step_less (by omega)
    refine Or.inl ⟨s', _, _, hstep, Reading.tag_of hs' htag (Or.inl ⟨?_, ?_, ?_⟩)⟩
    · exact OpenTag.single
    · show 1 + 2 ≤ size
      omega
    · exact List.suffix_append _ _
  by_cases htag : s.inSsiTag = true
  · by_cases hclose : ch = greater ∧ (w = [dash] ∨ dashes <:+ w)
    · obtain ⟨rfl, hw⟩ := hclose
      by_cases hfront : w = [dash] ∨ w = dashes
      · -- only behind a tag that was too large can the buffer begin with a dash
        refine Or.inr ⟨h.pending.step_overrun htag hfront, ?_⟩
        rcases h.tag htag with ⟨hopen, -, -⟩ | hrestarted
        · obtain ⟨v, rfl, -⟩ := hopen.begins
          rcases hfront with heq | heq
          · injection heq with hd
            exact absurd hd (by decide)
          · injection heq with hd
            exact absurd hd (by decide)
        · obtain ⟨pre, t, rfl, ht, hlen⟩ := hrestarted.behind
          exact ⟨pre, t, w, [], rfl, ht, hlen, hfront⟩
      · obtain ⟨u, rfl⟩ : dashes <:+ w := hw.resolve_left fun heq => hfront (Or.inl heq)
        have hu : u ≠ [] := fun hnil => hfront (Or.inr (by rw [hnil]; rfl))
        obtain ⟨buf, htrim, hlen⟩ := h.pending.trimTag_ok hu
        exact Or.inl ⟨_, _, [], h.pending.step_greater htag htrim, Reading.closed hlen (by omega)⟩
    · refine Or.inl (h.step_inside htag hsize ⟨hless, fun hgt => ⟨?_, ?_⟩⟩)
      · exact fun heq => hclose ⟨hgt, Or.inl heq⟩
      · exact fun heq => hclose ⟨hgt, Or.inr heq⟩
  · rw [Bool.not_eq_true] at htag
    obtain ⟨s', w', evs, hstep, hs', htag', hroom, -⟩ :=
      h.pending.step_text htag hless (h.text htag)
    exact Or.inl ⟨s', evs, w', hstep, Reading.text_of hs' htag' hroom⟩

/-- … and so does the loop. -/
theorem Reading.run {buf : Bytes} (hlen : buf.length = size) (hsize : 8 ≤ size) (file : Bytes) :
    (∃ s evs w, Scans { buf := buf } file evs s ∧ Reading size file s w) ∨
      (SsiScan.run { buf := buf } file = .error .overrun ∧ Overlong size file) := by
  induction file using List.reverseRecOn with
  | nil => exact Or.inl ⟨_, [], [], Scans.nil _, Reading.closed hlen (by omega)⟩
  | append_singleton file ch ih =>
    rcases ih with ⟨s, evs, w, hscan, hs⟩ | ⟨hrun, pre, t, w, post, rfl, ht⟩
    · rcases hs.step hsize ch with ⟨s', evs', w', hstep, hs'⟩ | ⟨hstep, hover⟩
      · exact Or.inl ⟨s', _, w', hscan.snoc hstep, hs'⟩
      · exact Or.inr ⟨hscan.fails hstep, hover⟩
    · refine Or.inr ⟨run_error hrun [ch], pre, t, w, post ++ [ch], ?_, ht⟩
      rw [List.append_assoc, List.cons_append]

/-- **The buffer is left if and only if** a tag is exactly so long that it is dropped when its
closing `-->` begins, or one byte in. -/
theorem ssiEvents_overrun_iff {buf : Bytes} (hsize : 8 ≤ buf.length) (file : Bytes) :
    ssiEvents buf file = .error .overrun ↔ Overlong buf.length file := by
  constructor
  · intro herr
    rcases Reading.run rfl hsize file with ⟨s, evs, w, hscan, -⟩ | ⟨-, hover⟩
    · unfold ssiEvents at herr
      rw [show SsiScan.run _ file = .ok (s, evs) from hscan] at herr
      cases herr
    · exact hover
  · intro ⟨pre, t, w, post, hfile, ht, hlen, hw⟩
    have hrun : SsiScan.run { buf := buf } file = .error .overrun := by
      rw [hfile, List.append_assoc, List.append_assoc]
      rcases Reading.run rfl hsize pre with ⟨s, evs, v, hscan, hs⟩ | ⟨hrun, -⟩
      · -- the whole tag is buffered, and dropped
        have hbtag : btag.length = 5 := rfl
        obtain ⟨s₁, hscan₁, hs₁, htag₁⟩ := hs.pending.scan_open ht (by omega)
        have hopen : StaysOpen t dash := ⟨by decide, fun heq => absurd heq (by decide)⟩
        obtain ⟨s₂, hstep₂, hs₂, htag₂⟩ :=
          hs₁.step_tooLarge htag₁ hopen (by omega) (by omega)
        rw [← List.append_assoc]
        rcases hw with rfl | rfl
        · have hfail := hs₂.step_overrun htag₂ (Or.inl rfl)
          have hscan₂ := (hscan.append hscan₁).snoc hstep₂
          rw [← List.append_assoc]
          exact hscan₂.fails hfail
        · have hopen' : StaysOpen [dash] dash := ⟨by decide, fun heq => absurd heq (by decide)⟩
          obtain ⟨s₃, hstep₃, hs₃, htag₃⟩ := hs₂.step_tag htag₂ (List.cons_ne_nil _ _) hopen'
            (fun heq => absurd heq (by decide)) (by show 1 + 2 < buf.length; omega)
          have hfail := hs₃.step_overrun htag₃ (Or.inr rfl)
          have hscan₃ := ((hscan.append hscan₁).snoc hstep₂).snoc hstep₃
          rw [← List.append_assoc, show pre ++ t ++ dashes = pre ++ t ++ [dash] ++ [dash] by
            rw [List.append_assoc _ [dash]]; rfl]
          exact hscan₃.fails hfail
      · exact run_error hrun _
    unfold ssiEvents
    rw [hrun]
    rfl

/-- A buffer of 24 bytes, and a tag with 17 bytes in front of its `-->`. -/
theorem ssiEvents_overrun_iff_17 :
    ssiEvents (List.replicate 24 0) (btag ++ List.replicate 17 97 ++ cstr "-->") =
        .error .overrun ↔
      Overlong 24 (btag ++ List.replicate 17 97 ++ cstr "-->") :=
  ssiEvents_overrun_iff (by decide) _

end SimplestWeb.Mongoose
