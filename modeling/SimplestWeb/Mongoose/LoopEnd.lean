import SimplestWeb.Mongoose.LoopSafe

/-!
# The closing loop of `mg_mgr_free` ends

`mg_mgr_free` marks a connection `MG_F_CLOSE_IMMEDIATELY` before it closes it,
so `mg_close_conn` reads nothing more from the socket and the loop does not
depend on what the clients send. `Left n t pc k` says that `k` steps of the
loop are left: a fixed number for each connection that comes after the one
being closed. Connections that are still opened in the meantime — the
forwarder of a CGI process — are put in front and not visited.
-/

namespace SimplestWeb.Mongoose

open SimplestWeb.Lib (Heap Outcome)

variable {n n' : Net} {t : MgrPtr} {lc nc a : ConnPtr} {tmp : Option ConnPtr} {c : MgConnection}
  {k : Nat} {pc pc' : MgPc}

/-- `tmp` and the connections after it, which the loop has not visited yet. -/
def Ahead (n : Net) (t : MgrPtr) (tmp : Option ConnPtr) (rest : List ConnPtr) : Prop :=
  rest.head? = tmp ∧ ∃ l, n.active t = l ++ rest

/-- `nc` and the connections after it. -/
def Current (n : Net) (t : MgrPtr) (nc : ConnPtr) (tmp : Option ConnPtr) (rest : List ConnPtr) :
    Prop :=
  rest.head? = tmp ∧ ∃ l, n.active t = l ++ nc :: rest

/-- `k` steps of the closing loop are left. -/
def Left (n : Net) (t : MgrPtr) (pc : MgPc) (k : Nat) : Prop :=
  match pc with
  | .visit tmp => ∃ rest, Ahead n t tmp rest ∧ k = 5 * rest.length
  | .recv nc tmp true => (∃ c, n.heap nc = some c ∧ c.flags.closeImmediately = true) ∧
    ∃ rest, Current n t nc tmp rest ∧ k = 5 * rest.length + 4
  | .close nc tmp => ∃ rest, Current n t nc tmp rest ∧ k = 5 * rest.length + 3
  | .request .close _ tmp _ => ∃ rest, Ahead n t tmp rest ∧ k = 5 * rest.length + 2
  | .destroy _ tmp => ∃ rest, Ahead n t tmp rest ∧ k = 5 * rest.length + 1
  | _ => False

/-- The list of manager `t` is part of what a step keeps. -/
theorem Net.active_congr (h : n'.mgrs = n.mgrs) : n'.active t = n.active t := by
  unfold Net.active
  rw [h]

/-- New connections are put in front. -/
theorem Ahead.front {rest : List ConnPtr} (h : Ahead n t tmp rest)
    (hact : ∃ l, n'.active t = l ++ n.active t) : Ahead n' t tmp rest := by
  obtain ⟨hhead, l, hl⟩ := h
  obtain ⟨l', hl'⟩ := hact
  exact ⟨hhead, l' ++ l, by rw [hl', hl, List.append_assoc]⟩

theorem Ahead.congr {rest : List ConnPtr} (h : Ahead n t tmp rest) (hm : n'.mgrs = n.mgrs) :
    Ahead n' t tmp rest :=
  h.front ⟨[], Net.active_congr hm⟩

/-- The successor in a list without repetition. -/
theorem nextOf_append {l rest : List ConnPtr} (hnd : (l ++ nc :: rest).Nodup) :
    nextOf nc (l ++ nc :: rest) = rest.head? := by
  induction l with
  | nil =>
    rw [List.nil_append]
    unfold nextOf
    rw [if_pos rfl]
  | cons b l ih =>
    rw [List.cons_append] at hnd ⊢
    obtain ⟨hb, hnd⟩ := List.nodup_cons.mp hnd
    have hne : b ≠ nc := by
      rintro rfl
      exact hb (by simp)
    unfold nextOf
    rw [if_neg hne]
    exact ih hnd

/-- The bound is linear in the length of the list. -/
theorem Left.le (h : Left n t pc k) : k ≤ 5 * (n.active t).length + 2 := by
  unfold Left at h
  split at h
  next =>
    obtain ⟨rest, ⟨-, l, hl⟩, rfl⟩ := h
    rw [hl, List.length_append]
    omega
  next =>
    obtain ⟨-, rest, ⟨-, l, hl⟩, rfl⟩ := h
    rw [hl, List.length_append, List.length_cons]
    omega
  next =>
    obtain ⟨rest, ⟨-, l, hl⟩, rfl⟩ := h
    rw [hl, List.length_append, List.length_cons]
    omega
  next =>
    obtain ⟨rest, ⟨-, l, hl⟩, rfl⟩ := h
    rw [hl, List.length_append]
    omega
  next =>
    obtain ⟨rest, ⟨-, l, hl⟩, rfl⟩ := h
    rw [hl, List.length_append]
    omega
  next => exact h.elim

/-! ## What does not change the lists -/

/-- An update of a connection leaves the lists of the managers alone. -/
theorem modify_mgrs {f : MgConnection → MgConnection} (h : n.modify a f = .ok n') :
    n'.mgrs = n.mgrs := by
  obtain ⟨c, -, rfl⟩ := Net.modify_eq_ok.mp h
  rfl

theorem unlinkCgi_mgrs {r : Option ConnPtr} (h : unlinkCgi n r = .ok n') : n'.mgrs = n.mgrs := by
  rcases unlinkCgi_eq_ok.mp h with ⟨-, rfl⟩ | ⟨g, cg, -, -, rfl⟩
  · rfl
  · rfl

/-- The end of a CGI process leaves them alone too. -/
theorem mgHttpFreeProtoDataCgi_mgrs (h : mgHttpFreeProtoDataCgi n a = .ok n') :
    n'.mgrs = n.mgrs := by
  unfold mgHttpFreeProtoDataCgi at h
  obtain ⟨c, -, h⟩ := seq_eq_ok.mp h
  split at h
  next => cases h
  next =>
    obtain ⟨n₁, h₁, h⟩ := seq_eq_ok.mp h
    exact (modify_mgrs h).trans (unlinkCgi_mgrs h₁)

theorem mgCgiEvHandler_close_mgrs {sent : Nat} (h : mgCgiEvHandler n a .close sent = .ok n') :
    n'.mgrs = n.mgrs := by
  unfold mgCgiEvHandler at h
  obtain ⟨c, -, h⟩ := seq_eq_ok.mp h
  split at h
  next => exact modify_mgrs h
  next => cases h
  next =>
    obtain ⟨n₁, h₁, h⟩ := seq_eq_ok.mp h
    exact (modify_mgrs h).trans (mgHttpFreeProtoDataCgi_mgrs h₁)

/-! ## The steps -/

/-- A visit in the closing loop is a step less to go. -/
theorem mgVisit_left {env : Env} (hl : Listed n t) (hL : Left n t (.visit (some nc)) k)
    (h : mgVisit .free n t nc env = .ok (pc', n')) : ∃ k' < k, Left n' t pc' k' := by
  obtain ⟨rest, ⟨hhead, l, hact⟩, rfl⟩ := hL
  obtain ⟨b, rest, rfl⟩ : ∃ b rest', rest = b :: rest' := by
    cases rest with
    | nil => cases hhead
    | cons b rest' => exact ⟨b, rest', rfl⟩
  obtain rfl : b = nc := Option.some.inj hhead
  unfold mgVisit at h
  obtain ⟨m, hm, h⟩ := seq_eq_ok.mp h
  have hlist : m.activeConnections = l ++ b :: rest := by
    rw [← hact]
    unfold Net.active
    rw [Net.derefMgr_eq_ok.mp hm]
  have hnd := hl.nodup
  rw [hact] at hnd
  rw [hlist, nextOf_append hnd] at h
  obtain ⟨n₁, h₁, h⟩ := seq_eq_ok.mp h
  obtain ⟨c, hc, rfl⟩ := Net.modify_eq_ok.mp h₁
  unfold mgCloseConn at h
  rw [Net.deref_bind (Heap.put_self _ _ _)] at h
  cases pure_eq_ok.mp h
  have hcur : Current (n.put b c.setCloseImmediately) t b rest.head? rest := ⟨rfl, l, hact⟩
  split
  next =>
    refine ⟨5 * rest.length + 4, ?_, ⟨_, Heap.put_self _ _ _, rfl⟩, rest, hcur, rfl⟩
    rw [List.length_cons]
    omega
  next =>
    refine ⟨5 * rest.length + 3, ?_, rest, hcur, rfl⟩
    rw [List.length_cons]
    omega

/-- Nothing is read from a connection that is to be closed immediately. -/
theorem mgDoRecv_left {env : Env} (hL : Left n t (.recv nc tmp true) k)
    (h : mgDoRecv n nc tmp true env = .ok (pc', n')) : ∃ k' < k, Left n' t pc' k' := by
  obtain ⟨⟨c, hc, hclose⟩, rest, hcur, rfl⟩ := hL
  unfold mgDoRecv at h
  rw [Net.deref_bind hc, hclose] at h
  cases pure_eq_ok.mp h
  exact ⟨5 * rest.length + 3, by omega, rest, hcur, rfl⟩

/-- The close event of a connection is a step less to go … -/
theorem mgCloseConnCb_left {env : Env} (H : Handling n t lc nc tmp)
    (hL : Left n t (.close nc tmp) k)
    (h : mgCloseConnCb n nc tmp env = .ok (pc', n')) : ∃ k' < k, Left n' t pc' k' := by
  obtain ⟨rest, ⟨hhead, l, hact⟩, rfl⟩ := hL
  obtain ⟨c, hc, ht⟩ := H.live
  unfold mgCloseConnCb at h
  rw [Net.modify_bind hc] at h
  obtain ⟨n₂, h₂, h⟩ := seq_eq_ok.mp h
  obtain ⟨hheap, herase, -⟩ := mgRemoveConn_spec (n := n.put nc c.closeSock) (c := c.closeSock) (Heap.put_self _ _ _) ht h₂
  have hnd := H.listed.nodup
  rw [hact] at hnd
  have hmem : nc ∉ l := by
    intro hmem
    exact (List.nodup_append.mp hnd).2.2 nc hmem nc List.mem_cons_self rfl
  -- the connection is unlinked, what is ahead stays
  have hahead : Ahead n₂ t tmp rest := by
    refine ⟨hhead, l, ?_⟩
    rw [herase]
    show (n.active t).erase nc = _
    rw [hact, List.erase_append_right _ hmem, List.erase_cons_head]
  have hdestroy : ∀ {n₃ : Net}, n₃.mgrs = n₂.mgrs →
      ∃ k' < 5 * rest.length + 3, Left n₃ t (.destroy nc tmp) k' := fun hm =>
    ⟨5 * rest.length + 1, by omega, rest, hahead.congr hm, rfl⟩
  obtain ⟨c', -, h⟩ := seq_eq_ok.mp h
  split at h
  next =>
    obtain ⟨n₃, h₃, h⟩ := seq_eq_ok.mp h
    have hm := unlinkCgi_mgrs h₃
    split at h
    next =>
      cases pure_eq_ok.mp h
      split
      next => exact ⟨5 * rest.length + 2, by omega, rest, hahead.congr hm, rfl⟩
      next => exact hdestroy hm
    next =>
      cases pure_eq_ok.mp h
      exact hdestroy hm
  next =>
    cases pure_eq_ok.mp h
    exact hdestroy rfl
  next =>
    split at h
    next =>
      cases pure_eq_ok.mp h
      exact hdestroy rfl
    next =>
      obtain ⟨n₃, h₃, h⟩ := seq_eq_ok.mp h
      cases pure_eq_ok.mp h
      exact hdestroy (mgCgiEvHandler_close_mgrs h₃)

/-- … and so is its end. -/
theorem mgFinishClose_left {env : Env} (hL : Left n t (.destroy nc tmp) k)
    (h : mgFinishClose n nc tmp env = .ok (pc', n')) : ∃ k' < k, Left n' t pc' k' := by
  obtain ⟨rest, hahead, rfl⟩ := hL
  unfold mgFinishClose at h
  obtain ⟨n₁, h₁, h⟩ := seq_eq_ok.mp h
  obtain ⟨n₂, h₂, h⟩ := seq_eq_ok.mp h
  cases pure_eq_ok.mp h
  unfold mgDestroyConn at h₂
  obtain ⟨c, -, h₂⟩ := seq_eq_ok.mp h₂
  obtain ⟨n₃, h₃, h₂⟩ := seq_eq_ok.mp h₂
  cases pure_eq_ok.mp h₂
  have hm : n₃.mgrs = n.mgrs := (unlinkCgi_mgrs h₃).trans (modify_mgrs h₁)
  refine ⟨5 * rest.length, by omega, rest, ?_, rfl⟩
  exact hahead.congr hm

/-- **Each step of the closing loop leaves fewer.** -/
theorem mgStep_left {user : UserHandler} (hu : UserSafe user t lc) {env : Env} {evs : List MgEvent}
    (hpc : PcOk n t lc pc) (hs : PcSafe .free n t lc pc) (hm : (n.mgrs t).isSome)
    (hL : Left n t pc k) (hend : pc ≠ .visit none)
    (h : mgStep user .free n t pc env = .ok (pc', n', evs)) : ∃ k' < k, Left n' t pc' k' := by
  cases pc with
  | visit b =>
    cases b with
    | none => exact absurd rfl hend
    | some b => exact mgVisit_left hpc.2.1 hL (quiet_eq_ok.mp h).1
  | recv b tmp closing =>
    cases closing with
    | true => exact mgDoRecv_left hL (quiet_eq_ok.mp h).1
    | false => exact hL.elim
  | request site b tmp hmsg =>
    cases site with
    | recv closing => exact hL.elim
    | close =>
      obtain ⟨C, hacc, -⟩ := hpc
      obtain ⟨T, hne, hp⟩ := hs
      obtain ⟨rest, hahead, rfl⟩ := hL
      obtain ⟨hpc', hsteady⟩ :=
        (mgHttpCallEndpointHandler_safe hu C.wired C.live hacc hp (T.last hne) hm).of_ok h
      rw [show pc' = .destroy b tmp from hpc']
      exact ⟨5 * rest.length + 1, by omega, rest, hahead.front hsteady.active, rfl⟩
  | close b tmp => exact mgCloseConnCb_left hpc hL (quiet_eq_ok.mp h).1
  | destroy b tmp => exact mgFinishClose_left hL (quiet_eq_ok.mp h).1
  | read | again | served | write => exact hL.elim

/-- Another thread's step leaves as many. -/
theorem NetFrame.left {u : MgrPtr} (h : NetFrame t n n') (hu : u ≠ t) (hpc : PcOk n u lc pc)
    (hL : Left n u pc k) : Left n' u pc k := by
  cases pc with
  | visit b =>
    obtain ⟨rest, hahead, hk⟩ := hL
    exact ⟨rest, hahead.front ⟨[], h.active hu⟩, hk⟩
  | recv b tmp closing =>
    cases closing with
    | false => exact hL.elim
    | true =>
      obtain ⟨⟨c, hc, hclose⟩, rest, ⟨hhead, l, hl⟩, hk⟩ := hL
      have hc' := (h.heap.other hu (Handling.live hpc |>.mgr hc)).mpr hc
      exact ⟨⟨c, hc', hclose⟩, rest, ⟨hhead, l, (h.active hu).trans hl⟩, hk⟩
  | close b tmp =>
    obtain ⟨rest, ⟨hhead, l, hl⟩, hk⟩ := hL
    exact ⟨rest, ⟨hhead, l, (h.active hu).trans hl⟩, hk⟩
  | request site b tmp hmsg =>
    cases site with
    | recv closing => exact hL.elim
    | close =>
      obtain ⟨rest, hahead, hk⟩ := hL
      exact ⟨rest, hahead.front ⟨[], h.active hu⟩, hk⟩
  | destroy b tmp =>
    obtain ⟨rest, hahead, hk⟩ := hL
    exact ⟨rest, hahead.front ⟨[], h.active hu⟩, hk⟩
  | read | again | served | write => exact hL.elim

end SimplestWeb.Mongoose
