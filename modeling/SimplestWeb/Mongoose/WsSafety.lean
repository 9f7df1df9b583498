import Mathlib.Logic.Relation
import SimplestWeb.Mongoose.EventLoop
import SimplestWeb.Mongoose.Websocket

/-!
# Websocket input in general

A client may send anything. The assertion of `mg_deliver_websocket_data` holds all the same
(`Reached.reassLen_le`), but two kinds of input are not refused:

* a last fragment without the others and without data, for which the handler is shown a message
  of `SIZE_MAX` bytes (`Reached.inside_iff`);
* a first fragment in the middle of a message, although "only the continuations and control
  frames are allowed" there (`first_fragment_mixes`).

For the loop in `EventLoop` all of this is within what its environment may do, and the
connection is marked for closing exactly if a frame is refused or a close frame is seen
(`mgWsHandler_receive`).
-/

namespace SimplestWeb.Mongoose

section

variable {c : WsConn} {buf enc : Bytes} {n : Nat} {f g : WsFrame}

/-! ## Whatever a client sends -/

/-- What a connection can become, from the upgrade on. -/
inductive Reached : WsConn → Prop
  | start (recvMbuf sendMbuf : Bytes) (sendAndClose noDefrag : Bool) :
      Reached ⟨recvMbuf, 0, sendMbuf, sendAndClose, noDefrag⟩
  | receive {c : WsConn} (bs : Bytes) (h : Reached c) :
      Reached { c with recvMbuf := c.recvMbuf ++ bs }
  | deliver {c : WsConn} (h : Reached c) : Reached (mgDeliverWebsocketData c).2.1

/-- The assertion `new_data_len >= existing_len` holds. -/
theorem Reached.reassLen_le (h : Reached c) : c.reassLen ≤ c.recvMbuf.length := by
  induction h with
  | start => exact Nat.zero_le _
  | receive bs _ ih =>
    dsimp only
    rw [List.length_append]
    omega
  | deliver _ ih => exact (deliver_bounds ih).1

/-- The last fragment of a message, without the others and without data. -/
structure Orphan (c : WsConn) : Prop where
  defrag : c.noDefrag = false
  alone : c.reassLen = 0
  frame : ∃ n f, wsFrame c.newData = some (n, f) ∧ Continues f true ∧ f.payload = []

/-- It is shown as a message of `SIZE_MAX` bytes. -/
theorem Orphan.shown (h : Orphan c) :
    ∃ m, (mgDeliverWebsocketData c).2.2 = [m] ∧ m.size = 2 ^ 64 - 1 ∧
      m.data.length ≤ c.recvMbuf.length := by
  obtain ⟨hdefrag, halone, n, f, hframe, hcont, hnil⟩ := h
  have hnew : c.newData = c.recvMbuf := by
    unfold WsConn.newData
    rw [halone, List.drop_zero]
  obtain ⟨-, hpos, hle, -, heq⟩ := wsFrame_eq_some hframe
  have hreass : c.reass = true := by
    have hflags : c.newData.headD 0 = f.flags := by rw [heq]
    unfold WsConn.reass
    rw [hflags, hcont.fragment.1, hdefrag,
      List.isEmpty_eq_false_iff.mpr (List.length_pos_iff.mp (by omega))]
    rfl
  rw [deliver_frame hframe (by rw [hreass, hcont.not_control]; rfl) (by rw [hreass]; rfl), hreass,
    if_pos rfl]
  unfold WsConn.reassemble
  dsimp only
  rw [hcont.fragment.2, hnil, if_pos (hcont.fin.mpr rfl), halone]
  refine ⟨_, rfl, rfl, ?_⟩
  simp only [Bool.false_eq_true, if_false, List.take_zero, List.nil_append, List.length_drop, hnew]
  omega

/-- A fragment that is the last, but does not begin a message. -/
theorem reass_last (h : c.reass = true) (hframe : wsFrame c.newData = some (n, f))
    (hfin : f.flags &&& FLAGS_MASK_FIN ≠ 0) : c.noDefrag = false ∧ Continues f true := by
  have hflags : c.newData.headD 0 = f.flags := by
    obtain ⟨-, -, -, -, heq⟩ := wsFrame_eq_some hframe
    rw [heq]
  unfold WsConn.reass mgIsWsFragment at h
  rw [hflags, beq_false_of_ne hfin, Bool.false_or, Bool.and_eq_true, Bool.and_eq_true, beq_iff_eq] at h
  exact ⟨by simpa using h.2, h.1.2, iff_of_true hfin rfl⟩

/-- A message that has been put together lies in the buffer, unless it has only an empty last
fragment. -/
theorem reassemble_inside (hle : c.reassLen ≤ c.recvMbuf.length)
    (hlen : c.recvMbuf.length < 2 ^ 64 - 1) (h : c.reass = true)
    (hframe : wsFrame c.newData = some (n, f)) (hnot : ¬ Orphan c) :
    ∀ m ∈ (c.reassemble f.flags f.payload (c.newData.drop n)).2, m.Inside := by
  have hsize := wsFrame_length hframe
  obtain ⟨-, -, hn, -, -⟩ := wsFrame_eq_some hframe
  have hnew : c.newData.length = c.recvMbuf.length - c.reassLen := List.length_drop
  by_cases hfin : f.flags &&& FLAGS_MASK_FIN ≠ 0
  · obtain ⟨hdefrag, hcont⟩ := reass_last h hframe hfin
    -- with nothing put together and nothing added it would be an orphan
    have hsome : 0 < c.reassLen + f.payload.length := by
      by_cases hzero : c.reassLen + f.payload.length = 0
      · have hnil : f.payload = [] := List.length_eq_zero_iff.mp (by omega)
        exact absurd ⟨hdefrag, by omega, n, f, hframe, hcont, hnil⟩ hnot
      · omega
    have hbuf : (c.recvMbuf.take c.reassLen ++ f.payload ++ c.newData.drop n).length =
        c.reassLen + f.payload.length + (c.newData.length - n) := by
      rw [List.length_append, List.length_append, List.length_take, List.length_drop,
        Nat.min_eq_left hle]
    unfold WsConn.reassemble
    dsimp only
    rw [hcont.fragment.2, if_pos hfin]
    simp only [Bool.false_eq_true, if_false]
    intro m hm
    rw [List.mem_singleton.mp hm]
    unfold WebsocketMessage.Inside
    dsimp only
    rw [List.length_drop, hbuf]
    omega
  · unfold WsConn.reassemble
    dsimp only
    rw [if_neg hfin]
    exact fun m hm => absurd hm List.not_mem_nil

/-- **Messages lie in the buffer**: in every state that is reached, a message that is shown does,
unless it is an empty last fragment without the others. -/
theorem Reached.inside_iff (h : Reached c) (hlen : c.recvMbuf.length < 2 ^ 64 - 1) :
    (∀ m ∈ (mgDeliverWebsocketData c).2.2, m.Inside) ↔ ¬ Orphan c := by
  constructor
  · intro hin horphan
    obtain ⟨m, hout, hsize, hdata⟩ := horphan.shown
    have hm := hin m (by rw [hout]; exact List.mem_singleton_self m)
    unfold WebsocketMessage.Inside at hm
    omega
  · intro hnot
    rcases deliver_cases c with ⟨-, text, heq⟩ | ⟨-, -, heq⟩ | ⟨-, n, f, hframe, heq⟩
    · rw [heq]
      exact fun m hm => absurd hm List.not_mem_nil
    · rw [heq]
      exact fun m hm => absurd hm List.not_mem_nil
    · rw [heq]
      by_cases hreass : c.reass = true
      · rw [if_pos hreass]
        exact reassemble_inside h.reassLen_le hlen hreass hframe hnot
      · rw [if_neg hreass]
        intro m hm
        rw [List.mem_singleton.mp hm]
        unfold WebsocketMessage.Inside
        dsimp only
        rw [List.length_append]
        exact Nat.le_add_right _ _

/-- Two bytes, without a mask, are such a fragment. -/
theorem inside_iff_two_bytes :
    (∀ m ∈ (mgDeliverWebsocketData { recvMbuf := [128, 0] }).2.2, m.Inside) ↔
      ¬ Orphan { recvMbuf := [128, 0] } :=
  (Reached.start [128, 0] [] false false).inside_iff (by decide)

/-- **Messages are mixed.** In the middle of a fragmented message the first fragment of another is
not refused: its flags and its data are put behind what is there, and of all this as much is kept
as its data are long; the rest is taken for the next frame. -/
theorem first_fragment_mixes (hc : Holds c (some g) (enc ++ buf)) (he : wsFraming.Encodes enc f)
    (hf : mgIsWsFirstFragment f.flags = true) (hctl : mgIsWsControlFrame f.flags = false) :
    ∃ c', mgDeliverWebsocketData c = (true, c', []) ∧
      Holds c' (some ⟨g.flags, (g.payload ++ f.flags :: f.payload).take f.payload.length⟩)
        ((g.payload ++ f.flags :: f.payload).drop f.payload.length ++ buf) := by
  have hparse : wsFrame c.newData = some (enc.length, f) := by
    rw [hc.newData]
    exact he.parse_append buf
  obtain ⟨-, hpos, -, -, heq⟩ := wsFrame_eq_some hparse
  obtain ⟨b, enc, rfl⟩ : ∃ b enc', enc = b :: enc' := List.exists_cons_of_ne_nil fun hnil => by
    rw [hnil] at hpos
    exact Nat.lt_irrefl 0 hpos
  obtain rfl : b = f.flags := by
    rw [heq, hc.newData]
    rfl
  have hreass : c.reass = true := by
    rw [hc.reass_eq (List.cons_ne_nil _ _)]
    exact (first_fragment hf).1
  have hkept : c.recvMbuf.take (c.reassLen + 1) = assembled (some g) ++ [f.flags] := by
    rw [hc.recv, hc.reass, List.take_length_add_append]
    rfl
  rw [deliver_frame hparse (by rw [hreass, hctl]; rfl) (by rw [hreass]; rfl), hreass, if_pos rfl,
    hc.newData, List.drop_left]
  unfold WsConn.reassemble
  dsimp only
  rw [hf, if_neg (by simp [(first_fragment hf).2]), if_pos rfl, if_pos rfl, hkept]
  refine ⟨_, rfl, ?_, ?_, hc.defrag⟩
  · -- the buffer is the same, wherever it is cut
    have hcut := List.take_append_drop f.payload.length (g.payload ++ f.flags :: f.payload)
    show assembled (some g) ++ [f.flags] ++ f.payload ++ buf =
      g.flags :: ((g.payload ++ f.flags :: f.payload).take f.payload.length ++
        ((g.payload ++ f.flags :: f.payload).drop f.payload.length ++ buf))
    rw [← List.append_assoc (List.take _ _), hcut]
    unfold assembled
    simp
  · unfold assembled
    simp only [List.length_cons, List.length_take, List.length_append]
    omega

/-- `AB` has been begun, and `CD` begins. -/
theorem first_fragment_mixes_ab_cd :
    ∃ c', mgDeliverWebsocketData { recvMbuf := 1 :: cstr "AB" ++ [1, 2] ++ cstr "CD", reassLen := 3 } =
        (true, c', []) ∧
      Holds c' (some ⟨1, (cstr "AB" ++ 1 :: cstr "CD").take 2⟩)
        ((cstr "AB" ++ 1 :: cstr "CD").drop 2 ++ []) := by
  have henc : wsFraming.Encodes ([1, 2] ++ cstr "CD") ⟨1, cstr "CD"⟩ := by
    unfold SimplestWeb.Lib.Framing.Encodes
    decide
  exact first_fragment_mixes (g := ⟨1, cstr "AB"⟩) ⟨rfl, rfl, rfl⟩ henc (by decide) (by decide)

/-! ## What the loop sees of it -/

/-- Bytes are sent and bytes are taken. -/
structure Effects (c c' : WsConn) : Prop where
  sent : ∃ sent, c'.sendMbuf = c.sendMbuf ++ sent
  taken : c'.recvMbuf.length ≤ c.recvMbuf.length

theorem Effects.refl (c : WsConn) : Effects c c :=
  ⟨⟨[], (List.append_nil _).symm⟩, Nat.le_refl _⟩

theorem Effects.trans {c' c'' : WsConn} (h : Effects c c') (h' : Effects c' c'') :
    Effects c c'' := by
  obtain ⟨sent, hsent⟩ := h.sent
  obtain ⟨sent', hsent'⟩ := h'.sent
  refine ⟨⟨sent ++ sent', ?_⟩, h'.taken.trans h.taken⟩
  rw [hsent', hsent, List.append_assoc]

end

end SimplestWeb.Mongoose
