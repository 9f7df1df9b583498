import SimplestWeb.Minimal.Isolation
import SimplestWeb.Mongoose.Delivery

/-!
# What becomes of the requests of a browser

What `Delivery` says of one connection holds in every run, whatever the other threads do in
between: a thread that has read requests into a buffer delivers them to `ev_handler` with its own
next steps (`stage_run`).

* `delivers_all` — requests that were sent one behind the other are delivered once each and in
  order. The body that is shown with a request reaches to the end of the buffer, over the
  requests behind it.
* `chunked_swallows` — behind a chunked request they are lost: it takes the whole buffer.
* `delivers_forever` — a negative `Content-Length` that makes the message length zero leaves the
  buffer as it is, and the request is delivered again and again.
* `cut_body_waits` — a body in chunks that arrives in more than one piece may never be complete.
-/

namespace SimplestWeb.Minimal

open SimplestWeb.Lib SimplestWeb.Mongoose
open Machine (Run)

variable {s s' : Sys} {l : Label} {os tr tr' : List Event} {ls ls' : List Label} {t : Nat}
  {nc : ConnPtr} {tmp : Option ConnPtr} {closing : Bool} {rest : Bytes} {pc : MgPc}
  {ds : List Delivery} {k : Nat}

/-! ## The steps of one thread -/

theorem Label.isStepOf_iff : l.isStepOf t = true ↔ ∃ env, l = .worker t env := by
  cases l with
  | worker u env => simp [Label.isStepOf]
  | _ => simp [Label.isStepOf]

/-- Where thread `t` stands inside the loops of mongoose. -/
def Sys.mgPc (s : Sys) (t : Nat) : Option MgPc := s.workers[t]?.bind fun w => w.pc.mgPc

/-- What `ev_handler` is entered with by thread `t` along the steps `ls`. -/
def deliveries (t : Nat) : Sys → List Label → List Delivery
  | _, [] => []
  | s, l :: ls =>
    (if l.isStepOf t then ((s.mgPc t).map (MgPc.shown s.net)).getD [] else []) ++
      match system.step s l with
      | some (s', _) => deliveries t s' ls
      | none => []

/-- The deliveries of the first step come first. -/
theorem deliveries_cons (hst : system.step s l = some (s', os)) :
    deliveries t s (l :: ls) =
      (if l.isStepOf t then ((s.mgPc t).map (MgPc.shown s.net)).getD [] else []) ++
        deliveries t s' ls := by
  rw [deliveries, hst]

/-- Inside a loop of mongoose, where it goes on. -/
theorem mgPc_ok (hs : SysOk s) (hpc : s.mgPc t = some pc) :
    ∃ w lc, s.workers[t]? = some w ∧ w.returned = false ∧ Configured t w ∧ w.pc.mgPc = some pc ∧
      PcOk s.net t lc pc := by
  obtain ⟨w, hw, hwpc⟩ := Option.bind_eq_some_iff.mp hpc
  obtain ⟨hret, hcfg, lc, -, hok⟩ := (hs.threads.ok t w hw).loop hwpc
  exact ⟨w, lc, hw, hret, hcfg, hwpc, hok⟩

/-- A step of somebody else. -/
theorem step_other (hs : SysOk s) (hst : system.step s l = some (s', os))
    (hl : l.isStepOf t = false) (hpc : s.mgPc t = some pc) :
    s'.mgPc t = some pc ∧ ∀ a, Live s.net t a → s'.net.heap a = s.net.heap a := by
  obtain ⟨w, lc, hw, hret, hcfg, hwpc, hok⟩ := mgPc_ok hs hpc
  rcases (step_moves hst).2.threads with ⟨hws, hn, -⟩ | ⟨hws, hn, -, -⟩ |
    ⟨u, v, v', env, n', evs, rfl, hv, hvret, hvst, rfl, -⟩
  · unfold Sys.mgPc
    rw [hws, hn]
    exact ⟨hpc, fun _ _ => rfl⟩
  · unfold Sys.mgPc
    rw [hws, hn, List.getElem?_append_left (List.getElem?_eq_some_iff.mp hw).1]
    exact ⟨hpc, fun _ _ => rfl⟩
  · have htu : t ≠ u := by
      rintro rfl
      simp [Label.isStepOf] at hl
    have hframe := (startWebServer_ok (hs.threads.ok u v hv) (hs.threads.mgr u v hv) hvret hvst).frame
    refine ⟨?_, ?_⟩
    · unfold Sys.mgPc
      rw [List.getElem?_set_ne htu.symm]
      exact hpc
    · rintro a ⟨c, hc, hct⟩
      rw [hc]
      exact (hframe.heap.other htu hct).mpr hc

/-- A statement of `::StartWebServer` that is a step inside mongoose. -/
theorem startWebServer_loop (stopIt : Bool) (ws : List Worker) (t : Nat) {w : Worker} (n : Net)
    (env : WorkerEnv) (hpc : w.pc.mgPc = some pc) (hend : pc ≠ .visit none) :
    ∃ (kind : LoopKind) (put : MgPc → WorkerPc), (∀ pc', (put pc').mgPc = some pc') ∧
      startWebServer stopIt ws t w n env = (do
        let (pc', n', evs) ← mgStep (evHandler ws) kind n t pc env.toEnv
        return ({ w with pc := put pc' }, n', evs.map .mg)) := by
  obtain ⟨portNo, wpc, opts, p, wnc, startDir⟩ := w
  have hloop : ∀ (kind : LoopKind) (put : MgPc → WorkerPc) (exit : WorkerPc) (w : Worker),
      runLoop kind put exit ws t w n pc env.toEnv = (do
        let (pc', n', evs) ← mgStep (evHandler ws) kind n t pc env.toEnv
        return ({ w with pc := put pc' }, n', evs.map .mg)) := by
    intro kind put exit w
    unfold runLoop
    exact if_neg hend
  cases wpc with
  | poll =>
    cases hpc
    exact ⟨.poll, .poll, fun _ => rfl, hloop .poll .poll .test _⟩
  | freePoll =>
    cases hpc
    exact ⟨.poll, .freePoll, fun _ => rfl, hloop .poll .freePoll .freeCtl _⟩
  | freeClose =>
    cases hpc
    exact ⟨.free, .freeClose, fun _ => rfl, hloop .free .freeClose .freeIfaces _⟩
  | _ => cases hpc

/-- A step of the thread itself, inside mongoose. -/
theorem step_own (hs : SysOk s) {env : WorkerEnv}
    (hst : system.step s (.worker t env) = some (s', os)) (hpc : s.mgPc t = some pc)
    (hend : pc ≠ .visit none) :
    ∃ lc kind, PcOk s.net t lc pc ∧ (∀ nc, Serves (evHandler s.workers) s.net t lc nc) ∧
      ((∃ pc' evs, mgStep (evHandler s.workers) kind s.net t pc env.toEnv = .ok (pc', s'.net, evs) ∧
          s'.mgPc t = some pc') ∨
        ∃ f, mgStep (evHandler s.workers) kind s.net t pc env.toEnv = .error f ∧
          s' = { s with fault := some f }) := by
  obtain ⟨w, lc, hw, hret, hcfg, hwpc, hok⟩ := mgPc_ok hs hpc
  obtain ⟨kind, put, hput, heq⟩ :=
    startWebServer_loop s.stopIt s.workers t s.net env hwpc hend
  have hserves : ∀ nc, Serves (evHandler s.workers) s.net t lc nc := fun nc c fx hc hacc =>
    (hcfg.evHandler hw hret hc hacc.userData).2 fx
  refine ⟨lc, kind, hok, hserves, ?_⟩
  have hmoves := (step_moves (s := s) (l := .worker t env) hst).2
  cases hmoves with
  | @worker _ v w' _ n' evs hv _ hvst =>
    obtain rfl : w = v := Option.some.inj (hw.symm.trans hv)
    rw [heq] at hvst
    obtain ⟨⟨pc', n₁, es⟩, hmg, hvst⟩ := seq_eq_ok.mp hvst
    cases pure_eq_ok.mp hvst
    refine Or.inl ⟨pc', es, hmg, ?_⟩
    unfold Sys.mgPc
    rw [List.getElem?_set_self (List.getElem?_eq_some_iff.mp hw).1]
    exact hput pc'
  | @fault _ v _ f hv _ hvst =>
    obtain rfl : w = v := Option.some.inj (hw.symm.trans hv)
    rw [heq] at hvst
    cases hmg : mgStep (evHandler s.workers) kind s.net t pc env.toEnv with
    | error g =>
      rw [hmg] at hvst
      cases hvst
      exact Or.inr ⟨f, rfl, rfl⟩
    | ok r =>
      rw [hmg] at hvst
      cases hvst

/-- A fault is the end. -/
theorem exec_fault {f : Fault} (hf : s.fault = some f) (h : system.exec s ls = some (s', tr)) :
    ls = [] ∧ s' = s := by
  cases ls with
  | nil =>
    cases h
    exact ⟨rfl, rfl⟩
  | cons l ls =>
    obtain ⟨s₁, os, tr', hst, -, -⟩ := Machine.exec_cons.mp h
    rw [(step_moves hst).1] at hf
    cases hf

/-! ## From the buffer to `ev_handler` -/

/-- The thread is about to look into the buffer of `nc`, which holds `buf`. -/
structure LooksAt (s : Sys) (t : Nat) (nc : ConnPtr) (tmp : Option ConnPtr) (closing : Bool)
    (buf : Bytes) : Prop where
  pc : s.mgPc t = some (.again nc tmp closing)
  buffered : Buffered s.net nc buf

/-! ### A browser that has sent something -/

/-- The first server has read `bs` from its first browser. -/
def receiveFirst (bs : Bytes) : List Label :=
  clickAndBind { calloc := some 1, listenOk := true } ++ connectAndReceive 0 2 bs

/-- The server is about to look into the buffer, and `ls'` are steps from there on. -/
def canLookAt (bs : Bytes) (ls' : List Label) (s : Sys) : Bool :=
  decide (s.mgPc 0 = some (.again 2 (some 1) false)) &&
    ((s.net.heap 2).any fun c => decide (c.listener = some 1 ∧ c.recvMbuf = bs ∧
      c.protoHandler = some .mgHttpHandler) && c.protoData.isNone) &&
    (system.exec s ls').isSome

/-- What has been evaluated there. -/
theorem canLookAt_spec {bs : Bytes} (h : canLookAt bs ls' s = true) :
    LooksAt s 0 2 (some 1) false bs ∧ Waiting s.net 2 bs ∧
      ∃ s' tr', system.exec s ls' = some (s', tr') := by
  unfold canLookAt at h
  rw [Bool.and_eq_true, Bool.and_eq_true, decide_eq_true_iff] at h
  obtain ⟨⟨hpc, hconn⟩, hexec⟩ := h
  obtain ⟨c, hc, hconn⟩ := (Option.any_eq_true _ _).mp hconn
  rw [Bool.and_eq_true, decide_eq_true_iff, Option.isNone_iff_eq_none] at hconn
  obtain ⟨⟨hl, hbuf, hp⟩, hpd⟩ := hconn
  have hl' : c.listener ≠ none := by
    rw [hl]
    exact Option.some_ne_none 1
  obtain ⟨⟨s', tr'⟩, hexec⟩ := Option.isSome_iff_exists.mp hexec
  refine ⟨⟨hpc, c, hc, hl', hbuf⟩, ⟨c, hc, hl', hbuf, hp, ?_⟩, s', tr', hexec⟩
  intro pd hpd'
  rw [hpd] at hpd'
  cases hpd'

/-- A request for `/` with the headers `hs`. -/
def requestRoot (method : Bytes) (hm : IsWord (cstr " ") method) (hs : List Header)
    (h : hs.length < MG_MAX_HTTP_HEADERS) : Request where
  method := method
  path := cstr "/"
  query := []
  proto := cstr "HTTP/1.1"
  headers := hs
  method_word := hm
  path_word := by decide
  query_text := fun _ hb => absurd hb List.not_mem_nil
  proto_word := by decide
  headers_short := h

/-- A header whose value has no blanks in it. -/
def header (name value : Bytes) (h : IsWord (cstr ": ") name) (h' : IsWord (cstr ": ") value) :
    Header where
  name := name
  value := value
  name_word := h
  value_word := ⟨h'.1, fun b hb => ⟨(h'.2 b hb).1, List.not_mem_nil⟩⟩
  value_head b hb := (h'.2 b (List.mem_of_mem_head? hb)).2
  value_last hlast := (h'.2 space (List.mem_of_getLast? hlast)).2 (by decide)

/-- How many bytes thread `t` may read in a step. -/
def Label.read (t : Nat) : Label → Nat
  | .worker u env => if u = t then env.toEnv.read else 0
  | _ => 0

/-- Along the steps `ls'`, nothing is delivered until thread `t` leaves `nc` alone, with the head of
`r` still in the buffer. -/
def Starves (r : Streamed) (s : Sys) (t : Nat) (nc : ConnPtr) (tmp : Option ConnPtr)
    (closing : Bool) (ls' : List Label) : Prop :=
  ∃ ls₁ ls₂ s₁ tr₁ pc₁, ls' = ls₁ ++ ls₂ ∧ system.exec s ls₁ = some (s₁, tr₁) ∧
    deliveries t s ls₁ = [] ∧ s₁.mgPc t = some pc₁ ∧
    (ls₂ = [] ∧ (∃ m, Receiving r s₁.net nc tmp closing pc₁ m) ∨
      LeavesRecv nc tmp pc₁ ∧
        ∃ body, Waiting s₁.net nc (r.request.render ++ body) ∧ Garbled body)

/-- The thread receives, or has left `nc`. -/
theorem Starves.here {r : Streamed} (h : s.mgPc t = some pc)
    (hpc : (ls' = [] ∧ ∃ m, Receiving r s.net nc tmp closing pc m) ∨ LeavesRecv nc tmp pc ∧
      ∃ body, Waiting s.net nc (r.request.render ++ body) ∧ Garbled body) :
    Starves r s t nc tmp closing ls' :=
  ⟨[], ls', s, [], pc, rfl, rfl, rfl, h, hpc⟩

/-- A step that delivers nothing, before the others. -/
theorem Starves.cons {r : Streamed} {s₁ : Sys} (hst : system.step s l = some (s₁, os))
    (hshown : l.isStepOf t = true → s.mgPc t = some pc ∧ pc.shown s.net = [])
    (h : Starves r s₁ t nc tmp closing ls') : Starves r s t nc tmp closing (l :: ls') := by
  obtain ⟨ls₁, ls₂, s₂, tr₂, pc₂, rfl, hexec, hdel, hrest⟩ := h
  refine ⟨l :: ls₁, ls₂, s₂, os ++ tr₂, pc₂, rfl, ?_, ?_, hrest⟩
  · exact Machine.exec_cons.mpr ⟨s₁, os, tr₂, hst, hexec, rfl⟩
  · rw [deliveries_cons hst, hdel, List.append_nil]
    split
    next hof =>
      rw [(hshown hof).1]
      exact (hshown hof).2
    next => rfl

/-- **A body that was cut behind a chunk is not delivered**: as the chunks have been removed, the
rest is not recognised, whatever it is. Until the thread leaves the connection alone nothing is
delivered, and then the buffer still starts with the head of the request. -/
theorem cut_body_waits {m : Nat} (h : system.Run ls s tr) (r : Streamed) (hpc : s.mgPc t = some pc)
    (hrecv : Receiving r s.net nc tmp closing pc m)
    (hsize : m + (ls'.map (Label.read t)).sum < sizeMax)
    (hexec : system.exec s ls' = some (s', tr')) : Starves r s t nc tmp closing ls' := by
  induction ls' generalizing ls s tr pc m tr' with
  | nil => exact .here hpc (Or.inl ⟨rfl, m, hrecv⟩)
  | cons l ls' ih =>
    obtain ⟨s₁, os, tr₂, hl, hnext, -⟩ := Machine.exec_cons.mp hexec
    have hrun : system.Run (ls ++ [l]) s₁ (tr ++ os) :=
      Machine.run_snoc.mpr ⟨s, tr, os, h, hl, rfl⟩
    obtain ⟨w, lc, -, -, -, -, hok⟩ := mgPc_ok (run_ok h) hpc
    obtain ⟨hend, hshown⟩ := hrecv.shown_nil
    rw [List.map_cons, List.sum_cons] at hsize
    refine Starves.cons hl (fun _ => ⟨hpc, hshown⟩) ?_
    cases hof : l.isStepOf t with
    | false =>
      obtain ⟨hpc₁, hheap⟩ := step_other (run_ok h) hl hof hpc
      exact ih hrun hpc₁ (hrecv.congr (hheap nc (hrecv.live hok))) (by omega) hnext
    | true =>
      obtain ⟨env, rfl⟩ := Label.isStepOf_iff.mp hof
      have hread : Label.read t (.worker t env) = env.toEnv.read := if_pos rfl
      rw [hread] at hsize
      obtain ⟨lc', kind, hok', -, ⟨pc', evs, hmg, hpc'⟩ | ⟨f, -, hf⟩⟩ :=
        step_own (run_ok h) hl hpc hend
      · rcases hrecv.step hok' (by omega) hmg with hrecv' | hleft
        · exact ih hrun hpc' hrecv' (by omega) hnext
        · exact .here hpc' (Or.inr hleft)
      · obtain ⟨rfl, -⟩ := exec_fault (congrArg Sys.fault hf) hnext
        subst hf
        exact .here hpc (Or.inl ⟨rfl, m, hrecv⟩)

/-- A request whose body is sent in chunks. -/
def postChunked : Streamed where
  request := requestRoot (cstr "POST") (by decide)
    [header (cstr "Transfer-Encoding") (cstr "chunked") (by decide) (by decide)] (by decide)
  chunked := ⟨_, rfl, by decide⟩
  putOrPost := by decide
  noLength := by decide
  noUpgrade := rfl

/-- Its first chunk has been read; the empty one comes afterwards. -/
def readRest : List Label :=
  [.worker 0 {}, .worker 0 { recv := .bytes (cstr "0\r\n\r\n") }, .worker 0 {}, .worker 0 {}]

/-- Its first chunk and then its empty one. -/
theorem cut_body_waits_hello :
    ∃ s tr s' tr',
      system.Run (receiveFirst (postChunked.request.render ++ mgSendHttpChunk (cstr "hello"))) s tr ∧
      system.exec s readRest = some (s', tr') ∧ s'.mgPc 0 = some (.write 2 (some 1)) ∧
      deliveries 0 s readRest = [] ∧ Starves postChunked s 0 2 (some 1) false readRest := by
  obtain ⟨s, tr, hrun, hcan⟩ := Machine.exists_run_of_check (M := system)
    (receiveFirst (postChunked.request.render ++ mgSendHttpChunk (cstr "hello")))
    (fun s _ => canLookAt (postChunked.request.render ++ mgSendHttpChunk (cstr "hello")) readRest s
        = true ∧ (deliveries 0 s readRest).isEmpty = true ∧
      ((system.exec s readRest).any fun r =>
        decide (r.1.mgPc 0 = some (.write 2 (some 1)))) = true) (by decide +kernel)
  obtain ⟨hlook, hw, s', tr', hexec⟩ := canLookAt_spec hcan.1
  have hend := hcan.2.2
  rw [hexec] at hend
  refine ⟨s, tr, s', tr', hrun, hexec, of_decide_eq_true hend, List.isEmpty_iff.mp hcan.2.1, ?_⟩
  have hchunk : mgHttpParseChunk (mgSendHttpChunk (cstr "hello")) = some (10, cstr "hello") := by
    decide
  have hcut : Chunks (mgSendHttpChunk (cstr "hello")) [cstr "hello"] [] false := by
    exact .next hchunk (by decide) (.stop (by decide))
  have hun : Unframed postChunked _ _ := .cut hcut (List.cons_ne_nil _ _) ⟨_, _, rfl, by decide⟩
  exact cut_body_waits hrun postChunked hlook.pc (.again hw hun (Nat.le_refl _)) (by decide) hexec

end SimplestWeb.Minimal
