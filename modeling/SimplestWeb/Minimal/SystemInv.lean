import SimplestWeb.Minimal.ServerInv
import SimplestWeb.Minimal.System

/-!
# The invariant of the program

`Moves` lists what a step of the program can do; every invariant below is a
case analysis over it. Two invariants are independent of each other:

* `ThreadsOk` — every thread meets its proof outline and every address of a
  thread not yet created is untouched. Only the creation of a thread and the
  threads' own steps matter.
* `UiOk` — the proof outline of the user interface's thread: which entries
  `webServerList` holds and where `startPortNo` stands. Of the threads' steps
  it needs only that a thread that has returned stays returned.

`counts` and `accepts` tie the trace to the state: how often each manager was
initialised and freed, and who accepted each connection last.
-/

namespace SimplestWeb.Minimal

open SimplestWeb.Lib SimplestWeb.Mongoose

/-! ## The transitions -/

section

variable {s s' : Sys} {l : Label} {os : List Event}

/-- The transitions of the program. -/
inductive Moves (s : Sys) : Label → Sys → List Event → Prop
  | construct (hui : s.ui = .idle) :
      Moves s (.click true)
        { s with workers := s.workers ++ [{ portNo := s.startPortNo }],
                 ui := .assign s.workers.length }
        [.created s.workers.length s.startPortNo]
  | throw (hui : s.ui = .idle) : Moves s (.click false) s [.threw]
  | terminate {t u : Nat} (hui : s.ui = .assign t)
      (hk : s.webServerList.lookup s.startPortNo = some (some u)) :
      Moves s .assign { s with fault := some .stdTerminate } [.fault .stdTerminate]
  | assignThrows {t : Nat} (hui : s.ui = .assign t) :
      Moves s .assignThrows { s with fault := some .stdTerminate } [.fault .stdTerminate]
  | assign {t : Nat} (hui : s.ui = .assign t)
      (hk : ∀ u, s.webServerList.lookup s.startPortNo ≠ some (some u)) :
      Moves s .assign
        { s with webServerList := s.webServerList.insert s.startPortNo (some t),
                 ui := .increment } []
  | overflow (hui : s.ui = .increment) (hp : s.startPortNo = INT_MAX) :
      Moves s .increment { s with fault := some .signedOverflow } [.fault .signedOverflow]
  | increment (hui : s.ui = .increment) (hp : s.startPortNo ≠ INT_MAX) :
      Moves s .increment
        { s with startPortNo := s.startPortNo + 1, ui := .status s.startPortNo } []
  | status {pNo : Int} (hui : s.ui = .status pNo) :
      Moves s .status { s with ui := .idle } [.status pNo s.getNumberOfServers]
  | onExit {order : List Int} (hui : s.ui = .idle) (hperm : order.Perm s.webServerList.keys) :
      Moves s (.onExit order) { s with stopIt := true, ui := .join order } [.stopIt]
  | join {k : Int} {rest : List Int} {t : Nat} {w : Worker} (hui : s.ui = .join (k :: rest))
      (hk : s.webServerList.lookup k = some (some t)) (hw : s.workers[t]? = some w)
      (hret : w.returned = true) :
      Moves s .join
        { s with webServerList := s.webServerList.insert k none, ui := .join rest } [.joined t]
  | skip {k : Int} {rest : List Int} (hui : s.ui = .join (k :: rest))
      (hk : ∀ t, s.webServerList.lookup k ≠ some (some t)) :
      Moves s .join { s with ui := .join rest } []
  | exit (hui : s.ui = .join []) : Moves s .exit { s with ui := .exited } [.exited]
  | worker {t : Nat} {w w' : Worker} {env : WorkerEnv} {n' : Net} {evs : List WorkerEvent}
      (hw : s.workers[t]? = some w) (hret : w.returned = false)
      (hst : startWebServer s.stopIt s.workers t w s.net env = .ok (w', n', evs)) :
      Moves s (.worker t env) { s with workers := s.workers.set t w', net := n' }
        (evs.map (.worker t))
  | fault {t : Nat} {w : Worker} {env : WorkerEnv} {f : Fault} (hw : s.workers[t]? = some w)
      (hret : w.returned = false)
      (hst : startWebServer s.stopIt s.workers t w s.net env = .error f) :
      Moves s (.worker t env) { s with fault := some f } [.fault f]

/-- The assignment to `webServerList[startPortNo]`. -/
theorem assignThread_moves {t : Nat} (hui : s.ui = .assign t) (h : s.assignThread t = (s', os)) :
    Moves s .assign s' os := by
  unfold Sys.assignThread at h
  split at h
  next u hk =>
    cases h
    exact .terminate hui hk
  next hk =>
    cases h
    exact .assign hui hk

/-- The increment of `startPortNo`. -/
theorem returnPort_moves (hui : s.ui = .increment) (h : s.returnPort = (s', os)) :
    Moves s .increment s' os := by
  unfold Sys.returnPort at h
  split at h
  next hp =>
    cases h
    exact .overflow hui hp
  next hp =>
    cases h
    exact .increment hui hp

/-- One round of the loop in `MyApp::OnExit`. -/
theorem joinEntry_moves {k : Int} {rest : List Int} (hui : s.ui = .join (k :: rest))
    (h : s.joinEntry k rest = some (s', os)) : Moves s .join s' os := by
  unfold Sys.joinEntry at h
  split at h
  next t hk =>
    split at h
    next hret =>
      cases h
      cases hw : s.workers[t]? with
      | none => simp [hw] at hret
      | some w => exact .join hui hk hw (by simpa [hw] using hret)
    next => cases h
  next hk =>
    cases h
    exact .skip hui hk

/-- One statement of a server thread. -/
theorem workerStep_moves {t : Nat} {env : WorkerEnv} (h : s.workerStep t env = some (s', os)) :
    Moves s (.worker t env) s' os := by
  unfold Sys.workerStep at h
  split at h
  next => cases h
  next w hw =>
    split at h
    next => cases h
    next hret =>
      split at h
      next f hst =>
        cases h
        exact .fault hw (by simpa using hret) hst
      next w' n' evs hst =>
        cases h
        exact .worker hw (by simpa using hret) hst

/-- **Every step is one of the transitions**, and none follows a fault. -/
theorem step_moves (h : s.step l = some (s', os)) : s.fault = none ∧ Moves s l s' os := by
  unfold Sys.step at h
  split at h
  next => cases h
  next hf =>
    refine ⟨by simpa using hf, ?_⟩
    split at h
    next ok hui =>
      cases ok with
      | true =>
        cases h
        exact .construct hui
      | false =>
        cases h
        exact .throw hui
    next t hui => exact assignThread_moves hui (Option.some.inj h)
    next t hui =>
      cases h
      exact .assignThrows hui
    next hui => exact returnPort_moves hui (Option.some.inj h)
    next pNo hui =>
      cases h
      exact .status hui
    next order hui =>
      split at h
      next hperm =>
        cases h
        exact .onExit hui (List.isPerm_iff.mp hperm)
      next => cases h
    next k rest hui => exact joinEntry_moves hui h
    next hui =>
      cases h
      exact .exit hui
    next t env => exact workerStep_moves h
    next => cases h

/-- Only two kinds of step concern the threads. -/
theorem Moves.threads (h : Moves s l s' os) :
    (s'.workers = s.workers ∧ s'.net = s.net ∧ ∀ t e, Event.worker t e ∉ os) ∨
    (s'.workers = s.workers ++ [{ portNo := s.startPortNo }] ∧ s'.net = s.net ∧
      s.ui = .idle ∧ os = [.created s.workers.length s.startPortNo]) ∨
    ∃ t w w' env n' evs, l = .worker t env ∧ s.workers[t]? = some w ∧ w.returned = false ∧
      startWebServer s.stopIt s.workers t w s.net env = .ok (w', n', evs) ∧
      s' = { s with workers := s.workers.set t w', net := n' } ∧ os = evs.map (.worker t) := by
  cases h with
  | construct hui => exact Or.inr (Or.inl ⟨rfl, rfl, hui, rfl⟩)
  | worker hw hret hst => exact Or.inr (Or.inr ⟨_, _, _, _, _, _, rfl, hw, hret, hst, rfl, rfl⟩)
  | _ => exact Or.inl ⟨rfl, rfl, by simp⟩

end

/-! ## The threads -/

/-- The port of the `t`-th server. -/
def portOf (t : Nat) : Int := STARTINGPORTNO + t

/-- Different threads have different ports. -/
theorem portOf_inj {t u : Nat} (h : portOf t = portOf u) : t = u := by
  unfold portOf at h
  omega

/-- The port number as the natural number `std::to_string` prints. -/
theorem toString_portOf (t : Nat) : toString (portOf t) = toString (8000 + t) := by
  have hcast : portOf t = ((8000 + t : Nat) : Int) := by
    unfold portOf STARTINGPORTNO
    omega
  rw [hcast]
  rfl

theorem portOf_succ (t : Nat) : portOf (t + 1) = portOf t + 1 := by
  unfold portOf
  omega

/-- Every thread meets its outline; what belongs to threads to come is
untouched. -/
structure ThreadsOk (ws : List Worker) (n : Net) : Prop where
  ok : ∀ t w, ws[t]? = some w → WorkerOk n t w
  mgr : ∀ t w, ws[t]? = some w → (n.mgrs t).isSome = w.pc.holdsMgr
  portNo : ∀ t w, ws[t]? = some w → w.portNo = portOf t
  fresh : ∀ t, ws.length ≤ t → Vacant n t ∧ n.mgrs t = none

/-- An element of a list with one more behind it. -/
theorem getElem?_snoc_cases {α : Type} {ws : List α} {w v : α} {u : Nat}
    (h : (ws ++ [v])[u]? = some w) : ws[u]? = some w ∨ u = ws.length ∧ w = v := by
  rw [List.getElem?_append] at h
  split at h
  next => exact Or.inl h
  next hu =>
    right
    have hlen := (List.getElem?_eq_some_iff.mp h).1
    rw [List.length_singleton] at hlen
    obtain rfl : u = ws.length := by omega
    rw [Nat.sub_self] at h
    exact ⟨rfl, (Option.some.inj h).symm⟩

/-- An element of a list with one rewritten. -/
theorem getElem?_set_cases {α : Type} {ws : List α} {w v : α} {t u : Nat}
    (h : (ws.set t v)[u]? = some w) : u = t ∧ w = v ∨ u ≠ t ∧ ws[u]? = some w := by
  rw [List.getElem?_set] at h
  split at h
  next htu =>
    split at h
    next => exact Or.inl ⟨htu.symm, (Option.some.inj h).symm⟩
    next => cases h
  next htu => exact Or.inr ⟨fun hut => htu hut.symm, h⟩

/-- The next thread is created. -/
theorem ThreadsOk.construct {ws : List Worker} {n : Net} (h : ThreadsOk ws n) {p : Int}
    (hp : p = portOf ws.length) : ThreadsOk (ws ++ [{ portNo := p }]) n := by
  obtain ⟨hv, hm⟩ := h.fresh ws.length (Nat.le_refl _)
  constructor
  · intro t w hw
    rcases getElem?_snoc_cases hw with hw | ⟨rfl, rfl⟩
    · exact h.ok t w hw
    · exact hv
  · intro t w hw
    rcases getElem?_snoc_cases hw with hw | ⟨rfl, rfl⟩
    · exact h.mgr t w hw
    · rw [hm]
      rfl
  · intro t w hw
    rcases getElem?_snoc_cases hw with hw | ⟨rfl, rfl⟩
    · exact h.portNo t w hw
    · exact hp
  · intro t ht
    rw [List.length_append, List.length_singleton] at ht
    exact h.fresh t (by omega)

/-- Thread `t` takes a step. -/
theorem ThreadsOk.step {ws : List Worker} {n n' : Net} (h : ThreadsOk ws n) {t : Nat}
    {w w' : Worker} {evs : List WorkerEvent} (hw : ws[t]? = some w)
    (hst : WorkerStepOk n n' t w w' evs) : ThreadsOk (ws.set t w') n' := by
  constructor
  · intro u v hv
    rcases getElem?_set_cases hv with ⟨rfl, rfl⟩ | ⟨hu, hv⟩
    · exact hst.ok
    · exact (h.ok u v hv).other hst.frame hu
  · intro u v hv
    rcases getElem?_set_cases hv with ⟨rfl, rfl⟩ | ⟨hu, hv⟩
    · exact hst.mgr
    · rw [hst.frame.mgrs u hu]
      exact h.mgr u v hv
  · intro u v hv
    rcases getElem?_set_cases hv with ⟨rfl, rfl⟩ | ⟨hu, hv⟩
    · rw [hst.portNo]
      exact h.portNo _ w hw
    · exact h.portNo u v hv
  · intro u hu
    rw [List.length_set] at hu
    have hut : u ≠ t := by
      have := (List.getElem?_eq_some_iff.mp hw).1
      omega
    obtain ⟨hvac, hm⟩ := h.fresh u hu
    exact ⟨hvac.other hst.frame hut, (hst.frame.mgrs u hut).trans hm⟩

/-! ## The user interface's thread -/

/-- `webServerList` holds exactly the first `m` threads, each under its port. -/
structure Held (list : WebServerList) (m : Nat) : Prop where
  lookup : ∀ k v, list.lookup k = some v ↔ ∃ u < m, k = portOf u ∧ v = some u
  size : list.entries.length = m

/-- At the start no thread is held. -/
theorem Held.empty : Held ∅ 0 where
  lookup := by simp
  size := rfl

/-- The next port is not in the map yet. -/
theorem Held.fresh {list : WebServerList} {m : Nat} (h : Held list m) :
    list.lookup (portOf m) = none := by
  cases hk : list.lookup (portOf m) with
  | none => rfl
  | some v =>
    obtain ⟨u, hu, hmu, _⟩ := (h.lookup _ _).mp hk
    have := portOf_inj hmu
    omega

/-- The next thread is held under the next port. -/
theorem Held.insert {list : WebServerList} {m : Nat} (h : Held list m) :
    Held (list.insert (portOf m) (some m)) (m + 1) where
  lookup := by
    intro k v
    by_cases hk : k = portOf m
    · subst hk
      rw [AList.lookup_insert]
      constructor
      · intro hv
        exact ⟨m, Nat.lt_succ_self m, rfl, (Option.some.inj hv).symm⟩
      · rintro ⟨u, _, hu, rfl⟩
        rw [portOf_inj hu]
    · rw [AList.lookup_insert_ne hk, h.lookup]
      constructor
      · rintro ⟨u, hu, rfl, rfl⟩
        exact ⟨u, by omega, rfl, rfl⟩
      · rintro ⟨u, hu, rfl, rfl⟩
        have hne : u ≠ m := fun hum => hk (by rw [hum])
        exact ⟨u, by omega, rfl, rfl⟩
  size := by
    have hnot : portOf m ∉ list := by
      rw [← AList.lookup_eq_none]
      exact h.fresh
    rw [AList.entries_insert_of_notMem hnot, List.length_cons, h.size]

/-- Which thread a key leads to. -/
theorem Held.handle {list : WebServerList} {m : Nat} (h : Held list m) {k : Int} {u : Nat} :
    list.lookup k = some (some u) ↔ u < m ∧ k = portOf u := by
  rw [h.lookup]
  constructor
  · rintro ⟨v, hv, rfl, huv⟩
    rw [Option.some.inj huv]
    exact ⟨hv, rfl⟩
  · rintro ⟨hu, rfl⟩
    exact ⟨u, hu, rfl, rfl⟩

/-- In `MyApp::OnExit`: the joinable threads are under their ports, and their
entries are still to come. -/
def Joining (list : WebServerList) (rest : List Int) : Prop :=
  ∀ k u, list.lookup k = some (some u) → k = portOf u ∧ k ∈ rest

/-- The proof outline of the user interface's thread. -/
def UiOk (s : Sys) : Prop :=
  s.startPortNo ≤ INT_MAX ∧
  match s.ui with
  | .idle =>
    s.stopIt = false ∧ s.startPortNo = portOf s.workers.length ∧
      Held s.webServerList s.workers.length
  | .assign t =>
    s.stopIt = false ∧ s.startPortNo = portOf t ∧ s.workers.length = t + 1 ∧
      Held s.webServerList t
  | .increment =>
    s.stopIt = false ∧ s.startPortNo + 1 = portOf s.workers.length ∧
      Held s.webServerList s.workers.length
  | .status pNo =>
    s.stopIt = false ∧ s.startPortNo = portOf s.workers.length ∧ pNo + 1 = s.startPortNo ∧
      Held s.webServerList s.workers.length
  | .join rest => s.stopIt = true ∧ Joining s.webServerList rest
  | .exited => s.stopIt = true ∧ Joining s.webServerList []

/-- The steps of the threads, and the faults, leave the outline alone. -/
theorem UiOk.congr {s s' : Sys} (h : UiOk s) (hlen : s'.workers.length = s.workers.length)
    (hlist : s'.webServerList = s.webServerList) (hport : s'.startPortNo = s.startPortNo)
    (hstop : s'.stopIt = s.stopIt) (hui : s'.ui = s.ui) : UiOk s' := by
  unfold UiOk at *
  rw [hlen, hlist, hport, hstop, hui]
  exact h

/-- **The step lemma of the user interface's thread.** -/
theorem UiOk.step {s s' : Sys} {l : Label} {os : List Event} (h : UiOk s)
    (hm : Moves s l s' os) : UiOk s' := by
  cases hm with
  | construct hui =>
    simp only [UiOk, hui] at h
    obtain ⟨hmax, hstop, hport, hheld⟩ := h
    exact ⟨hmax, hstop, hport, List.length_append, hheld⟩
  | throw hui => exact h
  | terminate hui hk => exact h
  | assignThrows hui => exact h
  | @assign t hui hk =>
    simp only [UiOk, hui] at h
    obtain ⟨hmax, hstop, hport, hlen, hheld⟩ := h
    refine ⟨hmax, hstop, ?_, ?_⟩
    · show s.startPortNo + 1 = portOf s.workers.length
      rw [hport, hlen, portOf_succ]
    · show Held (s.webServerList.insert s.startPortNo (some t)) s.workers.length
      rw [hport, hlen]
      exact hheld.insert
  | overflow hui hp => exact h
  | increment hui hp =>
    simp only [UiOk, hui] at h
    obtain ⟨hmax, hstop, hport, hheld⟩ := h
    refine ⟨?_, hstop, hport, rfl, hheld⟩
    show s.startPortNo + 1 ≤ INT_MAX
    omega
  | status hui =>
    simp only [UiOk, hui] at h
    obtain ⟨hmax, hstop, hport, -, hheld⟩ := h
    exact ⟨hmax, hstop, hport, hheld⟩
  | onExit hui hperm =>
    simp only [UiOk, hui] at h
    obtain ⟨hmax, -, -, hheld⟩ := h
    refine ⟨hmax, rfl, ?_⟩
    -- what is to be joined is what the map holds
    intro k u hk
    refine ⟨(hheld.handle.mp hk).2, hperm.mem_iff.mpr ?_⟩
    rw [← AList.mem_keys, ← AList.lookup_isSome, hk]
    rfl
  | @join k rest t w hui hk hw hret =>
    simp only [UiOk, hui] at h
    obtain ⟨hmax, hstop, hjoin⟩ := h
    refine ⟨hmax, hstop, ?_⟩
    intro k' u hk'
    -- the handle under `k` is empty now, the others are still in the list
    by_cases hkk : k' = k
    · rw [hkk, AList.lookup_insert] at hk'
      cases hk'
    · rw [AList.lookup_insert_ne hkk] at hk'
      obtain ⟨hport, hmem⟩ := hjoin k' u hk'
      exact ⟨hport, List.mem_of_ne_of_mem hkk hmem⟩
  | @skip k rest hui hk =>
    simp only [UiOk, hui] at h
    obtain ⟨hmax, hstop, hjoin⟩ := h
    refine ⟨hmax, hstop, ?_⟩
    intro k' u hk'
    obtain ⟨hport, hmem⟩ := hjoin k' u hk'
    refine ⟨hport, List.mem_of_ne_of_mem ?_ hmem⟩
    intro hkk
    exact hk u (hkk ▸ hk')
  | exit hui =>
    simp only [UiOk, hui] at h
    exact h
  | worker hw hret hst => exact h.congr List.length_set rfl rfl rfl rfl
  | fault hw hret hst => exact h

end SimplestWeb.Minimal
