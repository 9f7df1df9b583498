import SimplestWeb.Mongoose.Websocket

/-!
# Messages of a websocket client

A client sends its messages with `mg_send_websocket_frame`, each in one frame or, with
`WEBSOCKET_DONT_FIN`, in several; before a message and between its fragments it may send pings
and pongs, and at the end a close frame, after which it has nothing more to say. The handler of
the server is shown what was sent, in order (`messages_received`), wherever the bytes have been
cut on their way.
-/

namespace SimplestWeb.Mongoose

/-! ## What a client sends -/

/-- A call of `mg_send_websocket_frame` by a client, with the mask it uses. -/
structure Sending where
  mask : WsMask
  op : Nat
  data : Bytes
  short : data.length < 2 ^ 31

namespace Sending

def bytes (s : Sending) : Bytes := mgSendWebsocketFrame (some s.mask) s.op s.data

def frame (s : Sending) : WsFrame := ⟨wsFlags s.op, s.data⟩

end Sending

/-- A ping or a pong. -/
structure Probe extends Sending where
  kind : op = WEBSOCKET_OP_PING ∨ op = WEBSOCKET_OP_PONG

/-- A fragment behind the first, and what is sent before it. -/
structure Part where
  probes : List Probe
  mask : WsMask
  data : Bytes
  short : data.length < 2 ^ 31

/-- Only the last fragment ends the message. -/
def continueOp (last : Bool) : Nat :=
  if last then WEBSOCKET_OP_CONTINUE else WEBSOCKET_OP_CONTINUE ||| WEBSOCKET_DONT_FIN

namespace Part

def sendings (p : Part) (last : Bool) : List Sending :=
  p.probes.map Probe.toSending ++ [⟨p.mask, continueOp last, p.data, p.short⟩]

def allSendings : List Part → List Sending
  | [] => []
  | [p] => p.sendings true
  | p :: ps => p.sendings false ++ allSendings ps

end Part

/-- A text or binary message, in one frame or in several. -/
structure Outgoing where
  mask : WsMask
  op : Nat
  first : Bytes
  parts : List Part
  kind : op = WEBSOCKET_OP_TEXT ∨ op = WEBSOCKET_OP_BINARY
  short : first.length < 2 ^ 31
  total : (first ++ (parts.map Part.data).flatten).length + 1 < 2 ^ 64

/-- What a client sends next. -/
inductive Item
  | probe (p : Probe)
  | message (m : Outgoing)

namespace Item

/-- The calls that send it. -/
def sendings : Item → List Sending
  | .probe p => [p.toSending]
  | .message m =>
    ⟨m.mask, if m.parts.isEmpty then m.op else m.op ||| WEBSOCKET_DONT_FIN, m.first, m.short⟩ ::
      Part.allSendings m.parts

/-- What the handler is to see of it, in this order: a message is shown when it is complete. -/
def frames : Item → List WsFrame
  | .probe p => [p.frame]
  | .message m =>
    (m.parts.flatMap Part.probes).map (fun p => p.frame) ++
      [⟨wsFlags m.op, m.first ++ (m.parts.map Part.data).flatten⟩]

end Item

/-! ## What the frames make up -/

section

variable {c : WsConn} {p p' : Option WsFrame} {fs ms : List WsFrame}

/-- Pings and pongs may come at any time. -/
theorem MakeUp.probe (hr : MakeUp p fs ms p') (q : Probe) :
    MakeUp p (q.frame :: fs) (q.frame :: ms) p' := by
  obtain ⟨⟨mask, op, data, short⟩, kind⟩ := q
  have hflags : mgIsWsFragment (wsFlags op) = false ∧ mgIsWsControlFrame (wsFlags op) = true := by
    rcases kind with rfl | rfl
    · decide
    · decide
  exact .control hflags.1 hflags.2 (show data.length < 2 ^ 32 - 1 by omega) hr

/-- Pings and pongs are shown as they are. -/
theorem MakeUp.probes (hr : MakeUp p fs ms p') (qs : List Probe) :
    MakeUp p (qs.map (fun q => q.frame) ++ fs) (qs.map (fun q => q.frame) ++ ms) p' := by
  induction qs with
  | nil => exact hr
  | cons q qs ih => exact ih.probe q

/-- … and a close frame. -/
theorem MakeUp.close {s : Sending} (hs : s.op = WEBSOCKET_OP_CLOSE) (hr : MakeUp p fs ms p') :
    MakeUp p (s.frame :: fs) (s.frame :: ms) p' := by
  obtain ⟨mask, op, data, short⟩ := s
  obtain rfl : op = WEBSOCKET_OP_CLOSE := hs
  exact .control (show mgIsWsFragment (wsFlags WEBSOCKET_OP_CLOSE) = false by decide)
    (show mgIsWsControlFrame (wsFlags WEBSOCKET_OP_CLOSE) = true by decide)
    (show data.length < 2 ^ 32 - 1 by omega) hr

/-- The frames of a fragment: the pings before it, then the fragment. -/
theorem Part.map_frame (q : Part) (last : Bool) :
    (q.sendings last).map Sending.frame = q.probes.map (fun p => p.frame) ++
      [⟨wsFlags (continueOp last), q.data⟩] := by
  unfold Part.sendings
  rw [List.map_append, List.map_map]
  rfl

theorem continueOp_flags : ∀ last : Bool, wsOp (wsFlags (continueOp last)) = WEBSOCKET_OP_CONTINUE ∧
    (wsFlags (continueOp last) &&& FLAGS_MASK_FIN ≠ 0 ↔ last = true) := by
  decide

theorem continueOp_continues (data : Bytes) (last : Bool) :
    Continues ⟨wsFlags (continueOp last), data⟩ last :=
  ⟨(continueOp_flags last).1, (continueOp_flags last).2⟩

/-- The fragments complete a message that has been begun. -/
theorem makeUp_parts (q : Part) (qs : List Part) (g : WsFrame)
    (hlen : (g.payload ++ ((q :: qs).map Part.data).flatten).length + 1 < 2 ^ 64)
    (hr : MakeUp none fs ms none) :
    MakeUp (some g) ((Part.allSendings (q :: qs)).map Sending.frame ++ fs)
      (((q :: qs).flatMap Part.probes).map (fun p => p.frame) ++
        ⟨FLAGS_MASK_FIN ||| g.flags, g.payload ++ ((q :: qs).map Part.data).flatten⟩ :: ms) none := by
  induction qs generalizing q g with
  | nil =>
    have hdata : ([q].map Part.data).flatten = q.data := List.append_nil _
    have hprobes : [q].flatMap Part.probes = q.probes := List.append_nil _
    rw [hdata, List.length_append] at hlen
    rw [hdata, hprobes, Part.allSendings, Part.map_frame, List.append_assoc]
    exact (MakeUp.last (continueOp_continues q.data true) hlen hr).probes q.probes
  | cons q' qs ih =>
    have hdata : g.payload ++ ((q :: q' :: qs).map Part.data).flatten =
        g.payload ++ q.data ++ ((q' :: qs).map Part.data).flatten := by
      rw [List.map_cons, List.flatten_cons, List.append_assoc]
    rw [hdata] at hlen ⊢
    rw [Part.allSendings, List.map_append, Part.map_frame, List.flatMap_cons, List.map_append,
      List.append_assoc, List.append_assoc, List.append_assoc]
    · exact (MakeUp.next (continueOp_continues q.data false)
        (ih q' ⟨g.flags, g.payload ++ q.data⟩ hlen)).probes q.probes
    · exact List.cons_ne_nil q' qs

/-- A message in fragments makes up one message. -/
theorem Item.makeUp (i : Item) (hr : MakeUp none fs ms none) :
    MakeUp none (i.sendings.map Sending.frame ++ fs) (i.frames ++ ms) none := by
  cases i with
  | probe q => exact hr.probe q
  | message m =>
    obtain ⟨mask, op, first, parts, kind, short, total⟩ := m
    have hflags : ∀ op, op = WEBSOCKET_OP_TEXT ∨ op = WEBSOCKET_OP_BINARY →
        mgIsWsFragment (wsFlags op) = false ∧ mgIsWsControlFrame (wsFlags op) = false ∧
          mgIsWsFirstFragment (wsFlags (op ||| WEBSOCKET_DONT_FIN)) = true ∧
          mgIsWsControlFrame (wsFlags (op ||| WEBSOCKET_DONT_FIN)) = false ∧
          FLAGS_MASK_FIN ||| wsFlags (op ||| WEBSOCKET_DONT_FIN) = wsFlags op := by
      intro op hop
      rcases hop with rfl | rfl
      · decide
      · decide
    obtain ⟨hwhole, hdata, hfirst, hctl, hfin⟩ := hflags op kind
    cases parts with
    | nil =>
      have hshown : first ++ (([] : List Part).map Part.data).flatten = first := List.append_nil first
      unfold Item.frames
      dsimp only
      rw [hshown]
      exact .whole hwhole hdata hr
    | cons q qs =>
      have hrest := makeUp_parts q qs ⟨wsFlags (op ||| WEBSOCKET_DONT_FIN), first⟩ total hr
      rw [hfin] at hrest
      unfold Item.frames
      dsimp only
      rw [List.append_assoc]
      exact .first hfirst hctl hrest

/-- One item after the other, and what may come at the end. -/
theorem makeUp_items (items : List Item) (hr : MakeUp none fs ms none) :
    MakeUp none ((items.flatMap Item.sendings).map Sending.frame ++ fs)
      (items.flatMap Item.frames ++ ms) none := by
  induction items with
  | nil => exact hr
  | cons i items ih =>
    rw [List.flatMap_cons, List.flatMap_cons, List.map_append, List.append_assoc, List.append_assoc]
    exact i.makeUp ih

/-! ## What arrives -/

/-- **What a client sends arrives.** A client sends messages, each in one frame or in several,
pings and pongs before and within them, and perhaps a close frame at the end; however the bytes
are cut into pieces on their way, the handler is shown each of them once, in the order in which
they were complete, all of them lie in the buffer, pings and the close are answered in order, and
nothing is left. -/
theorem messages_received (items : List Item) (close : Option Sending) (pieces : List Bytes)
    (hc : Holds c none []) (hclose : ∀ s, close = some s → s.op = WEBSOCKET_OP_CLOSE)
    (hp : pieces.flatten = ((items.flatMap Item.sendings ++ close.toList).map Sending.bytes).flatten) :
    (wsReceiveAll c pieces).2.map WebsocketMessage.shown =
        items.flatMap Item.frames ++ close.toList.map Sending.frame ∧
      (∀ m ∈ (wsReceiveAll c pieces).2, m.Inside) ∧
      (wsReceiveAll c pieces).1.sendMbuf = c.sendMbuf ++
        ((items.flatMap Item.sendings ++ close.toList).map fun s => answer s.frame).flatten ∧
      Holds (wsReceiveAll c pieces).1 none [] := by
  have henc : List.Forall₂ wsFraming.Encodes
      ((items.flatMap Item.sendings ++ close.toList).map Sending.bytes)
      ((items.flatMap Item.sendings ++ close.toList).map Sending.frame) := by
    rw [List.forall₂_map_left_iff, List.forall₂_map_right_iff, List.forall₂_same]
    intro s _
    exact mgSendWebsocketFrame_encodes (some s.mask) s.op s.short
  have hend : MakeUp none (close.toList.map Sending.frame) (close.toList.map Sending.frame) none := by
    cases close with
    | none => exact .done none
    | some s => exact (MakeUp.done none).close (hclose s rfl)
  have hmake := makeUp_items items hend
  rw [← List.map_append] at hmake
  obtain ⟨hholds, hdone⟩ := stream_reassembled hc henc hmake hp
  have hsent := hdone.sent
  rw [List.map_map] at hsent
  exact ⟨hdone.shown, hdone.inside, hsent, hholds⟩

/-- A message in two frames, with a ping in between. -/
def helloMessage : Item :=
  .message
    { mask := ⟨[1, 2, 3, 4], rfl⟩
      op := WEBSOCKET_OP_TEXT
      first := cstr "Hel"
      parts := [⟨[⟨⟨⟨[5, 6, 7, 8], rfl⟩, WEBSOCKET_OP_PING, cstr "?", by decide⟩, Or.inl rfl⟩],
        ⟨[9, 10, 11, 12], rfl⟩, cstr "lo", by decide⟩]
      kind := Or.inl rfl
      short := by decide
      total := by decide }

/-- … and then the client goes. -/
def goodbye : Sending := ⟨⟨[13, 14, 15, 16], rfl⟩, WEBSOCKET_OP_CLOSE, [], by decide⟩

/-- The header of the first frame is cut in two. -/
def helloPieces : List Bytes :=
  let bytes := ((helloMessage.sendings ++ [goodbye]).map Sending.bytes).flatten
  [bytes.take 1, bytes.drop 1]

theorem messages_received_hello :
    (wsReceiveAll {} helloPieces).2.map WebsocketMessage.shown =
        [⟨wsFlags WEBSOCKET_OP_PING, cstr "?"⟩, ⟨wsFlags WEBSOCKET_OP_TEXT, cstr "Hello"⟩,
          ⟨wsFlags WEBSOCKET_OP_CLOSE, []⟩] ∧
      (wsReceiveAll {} helloPieces).1.sendMbuf =
        mgSendWebsocketFrame none WEBSOCKET_OP_PONG (cstr "?") ++
          mgSendWebsocketFrame none WEBSOCKET_OP_CLOSE [] := by
  obtain ⟨hshown, -, hsent, -⟩ := messages_received (c := {}) [helloMessage] (some goodbye)
    helloPieces ⟨rfl, rfl, rfl⟩
    (fun s hs => by rw [← Option.some.inj hs]; rfl)
    (by rw [helloPieces, List.flatten_cons, List.flatten_singleton, List.take_append_drop]; rfl)
  rw [hshown, hsent]
  exact ⟨by decide, by decide⟩

end

end SimplestWeb.Mongoose
