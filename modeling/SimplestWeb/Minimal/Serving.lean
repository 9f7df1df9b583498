import SimplestWeb.Minimal.Isolation
import SimplestWeb.Minimal.Ports
import SimplestWeb.Mongoose.SendFile

/-!
# What the servers serve

`ev_handler` hands a request to `mg_serve_http` with the options of the thread. Whatever the
request asks for, the answer is about a path below that server's own directory
(`evHandlerAnswer_below`), and no path is below the directories of two servers
(`servers_share_no_file`).

The path is the one that `mg_serve_http` finds for the request: of the file it sends, the
directory it lists or the program it runs. What a page made of server side includes pulls in
is not looked at here.
-/

namespace SimplestWeb.Minimal

open SimplestWeb.Lib SimplestWeb.Mongoose
open SimplestWeb.Lib.Buffer (Overrun)

variable {s : Sys} {tr : List Event} {ls : List Label}

/-- What `ev_handler` has `mg_serve_http` answer to `hm`. -/
def evHandlerAnswer (ws : List Worker) (n : Net) (nc : ConnPtr) (stat : Bytes → Option FileKind)
    (notModified : Bytes → Bool) (malloc : Nat → Option Bytes) (hm : HttpMessage) :
    Except Fault (Except Overrun Answer) := do
  let root ← evHandlerRoot ws n nc
  return mgServeHttpAnswer { documentRoot := cstr root } stat notModified malloc hm

/-- The connection and the request `ev_handler` is about to be entered with. -/
def Worker.asked (w : Worker) : Option (ConnPtr × HttpMessage) :=
  match w.pc.mgPc with
  | some (.request _ nc _ hm) => some (nc, hm)
  | _ => none

/-- What thread `t` answers in its next step, if that is a step of `ev_handler`. -/
def Sys.answer (s : Sys) (t : Nat) (stat : Bytes → Option FileKind) (notModified : Bytes → Bool)
    (malloc : Nat → Option Bytes) : Option (Except Fault (Except Overrun Answer)) :=
  (s.workers[t]?.bind Worker.asked).map fun r =>
    evHandlerAnswer s.workers s.net r.1 stat notModified malloc r.2

/-! ## The directories -/

/-- The directory of a server, in bytes. -/
def rootBytes (t : Nat) : Bytes := cstr (rootOf (portOf t))

/-- The digits of its port. -/
def portBytes (t : Nat) : Bytes := (Nat.toDigits 10 (8000 + t)).map fun c => UInt8.ofNat c.toNat

/-- The directory of the server with port 8000 + `t`. -/
theorem rootBytes_eq (t : Nat) : rootBytes t = cstr "./web-" ++ portBytes t := by
  unfold rootBytes rootOf cstr portBytes
  rw [toString_portOf, String.toList_append, List.map_append, Nat.toString_eq_repr, Nat.toList_repr]

/-- A digit is its byte. -/
theorem toNat_digit {c : Char} (h : c.isDigit = true) :
    (UInt8.ofNat c.toNat).toNat = c.toNat ∧ 48 ≤ c.toNat ∧ c.toNat ≤ 57 := by
  rw [Char.isDigit_iff_toNat] at h
  have hzero : '0'.toNat = 48 := rfl
  have hnine : '9'.toNat = 57 := rfl
  refine ⟨?_, by omega, by omega⟩
  rw [UInt8.toNat_ofNat']
  omega

/-- A port is written in digits. -/
theorem portBytes_digits {t : Nat} {b : UInt8} (h : b ∈ portBytes t) : isdigit b = true := by
  obtain ⟨c, hc, rfl⟩ := List.mem_map.mp h
  obtain ⟨hb, hlow, hhigh⟩ := toNat_digit (Nat.isDigit_of_mem_toDigits (by decide) (by decide) hc)
  unfold isdigit
  rw [decide_eq_true_iff, UInt8.le_iff_toNat_le, UInt8.le_iff_toNat_le, hb]
  exact ⟨hlow, hhigh⟩

/-- The port can be read off. -/
theorem portBytes_inj {t u : Nat} (h : portBytes t = portBytes u) : t = u := by
  have hchars : ∀ t, (portBytes t).map (fun b => Char.ofNat b.toNat) = Nat.toDigits 10 (8000 + t) := by
    intro t
    have hid : ∀ c ∈ Nat.toDigits 10 (8000 + t),
        Char.ofNat (UInt8.ofNat c.toNat).toNat = c := by
      intro c hc
      rw [(toNat_digit (Nat.isDigit_of_mem_toDigits (by decide) (by decide) hc)).1, Char.ofNat_toNat]
    unfold portBytes
    rw [List.map_map]
    exact (List.map_congr_left hid).trans (List.map_id _)
  have heq : Nat.toDigits 10 (8000 + t) = Nat.toDigits 10 (8000 + u) := by
    rw [← hchars t, ← hchars u, h]
  have hval := toDigits_inj heq
  omega

theorem slash_notMem_portBytes (t : Nat) : slash ∉ portBytes t :=
  fun h => absurd (portBytes_digits h) (by decide)

theorem nul_notMem_rootBytes (t : Nat) : nul ∉ rootBytes t := by
  rw [rootBytes_eq, List.mem_append, not_or]
  exact ⟨by decide, fun h => absurd (portBytes_digits h) (by decide)⟩

/-- The directory's name does not end with a slash. -/
theorem rootBase_rootBytes (t : Nat) : rootBase (rootBytes t) = rootBytes t := by
  unfold rootBase
  rw [if_neg]
  intro hlast
  rw [rootBytes_eq] at hlast
  have hmem : slash ∈ portBytes t := by
    cases hp : portBytes t using List.reverseRecOn with
    | nil =>
      rw [hp] at hlast
      exact absurd hlast (by decide)
    | append_singleton bs b =>
      rw [hp, ← List.append_assoc, List.getLast?_concat] at hlast
      rw [Option.some.inj hlast]
      exact List.mem_append_right _ (List.mem_singleton_self _)
  exact slash_notMem_portBytes t hmem

/-- Nothing is below two of the directories. -/
theorem below_rootBytes_inj {t u : Nat} {st st' : List Bytes}
    (h : below (rootBytes t) st = below (rootBytes u) st') : t = u := by
  have hport : ∀ t st, (below (rootBytes t) st).drop (cstr "./web-").length =
      portBytes t ++ Segments.join slash st := by
    intro t st
    unfold below
    rw [rootBytes_eq, List.append_assoc, List.drop_left]
  have hfirst : ∀ t (st : List Bytes),
      (portBytes t ++ Segments.join slash st).takeWhile (fun b => decide (b ≠ slash)) =
        portBytes t := by
    intro t st
    cases st with
    | nil =>
      rw [Segments.join_nil, List.append_nil]
      exact Segments.takeWhile_ne_self (slash_notMem_portBytes t)
    | cons c st => exact Segments.takeWhile_ne_append (slash_notMem_portBytes t)
  refine portBytes_inj ?_
  rw [← hfirst t st, ← hport t st, h, hport u st', hfirst u st']

/-! ## The answers -/

/-- It is asked something where it enters the handler. -/
theorem asked_enters {t : Nat} {nc : ConnPtr} {hm : HttpMessage}
    (h : s.workers[t]?.bind Worker.asked = some (nc, hm)) : Enters s t nc := by
  obtain ⟨w, hw, hasked⟩ := Option.bind_eq_some_iff.mp h
  unfold Worker.asked at hasked
  split at hasked
  next site a tmp hm' hpc =>
    cases hasked
    exact enters_iff.mpr ⟨w, site, tmp, hm, hw, hpc⟩
  next => cases hasked

/-- The handler answers with the directory of its own thread. -/
theorem evHandlerAnswer_eq (h : system.Run ls s tr) {t : Nat} {nc : ConnPtr}
    (henters : Enters s t nc) (stat : Bytes → Option FileKind) (notModified : Bytes → Bool)
    (malloc : Nat → Option Bytes) (hm : HttpMessage) :
    evHandlerAnswer s.workers s.net nc stat notModified malloc hm =
      .ok (mgServeHttpAnswer { documentRoot := rootBytes t } stat notModified malloc hm) := by
  have hs := (run_ok h).threads
  obtain ⟨w, site, tmp, hm', hw, hpc⟩ := enters_iff.mp henters
  obtain ⟨hret, hcfg, lc, hlc, hpcok⟩ := (hs.ok t w hw).loop hpc
  obtain ⟨c, hc, hct, hacc⟩ := pcOk_request hpcok
  unfold evHandlerAnswer
  rw [(hcfg.evHandler hw hret hc hacc.userData).1, hs.portNo t w hw]
  rfl

/-- An answer is given, and it is about something below that directory. -/
theorem evHandlerAnswer_below (h : system.Run ls s tr) {t : Nat} {nc : ConnPtr}
    (henters : Enters s t nc) (stat : Bytes → Option FileKind) (notModified : Bytes → Bool)
    {malloc : Nat → Option Bytes} (hmalloc : ∀ k block, malloc k = some block → block.length = k)
    (hm : HttpMessage) :
    ∃ a, evHandlerAnswer s.workers s.net nc stat notModified malloc hm = .ok (.ok a) ∧
      ∀ p, a.path = some p → ∃ st, (∀ c ∈ st, IsName c) ∧ p = below (rootBytes t) st := by
  have hindex := indexFiles_names (rootBytes t)
  obtain ⟨a, ha, hbelow⟩ :=
    mgServeHttpAnswer_below stat notModified hm (nul_notMem_rootBytes t) hmalloc hindex
  rw [evHandlerAnswer_eq h henters stat notModified malloc hm, ha]
  refine ⟨a, rfl, fun p hp => ?_⟩
  obtain ⟨st, hst, heq⟩ := hbelow p hp
  exact ⟨st, hst, heq.trans (congrArg (below · st) (rootBase_rootBytes t))⟩

/-- Whatever is answered, it is about something below the server's directory. -/
theorem Sys.answer_below (h : system.Run ls s tr) {t : Nat} {stat : Bytes → Option FileKind}
    {notModified : Bytes → Bool} {malloc : Nat → Option Bytes}
    (hmalloc : ∀ k block, malloc k = some block → block.length = k)
    {r : Except Fault (Except Overrun Answer)} (hr : s.answer t stat notModified malloc = some r) :
    ∃ a, r = .ok (.ok a) ∧
      ∀ p, a.path = some p → ∃ st, (∀ c ∈ st, IsName c) ∧ p = below (rootBytes t) st := by
  obtain ⟨⟨nc, hm⟩, hasked, rfl⟩ := Option.map_eq_some_iff.mp hr
  exact evHandlerAnswer_below h (asked_enters hasked) stat notModified hmalloc hm

/-- **Every server stays in its own directory.** Whenever `ev_handler` is entered by two
different servers — at any moment of any run, with whatever requests and whatever files there
are — both give an answer, each is about a path that consists of the directory of the server
and names below it, and the two are never about the same path. -/
theorem servers_share_no_file {s' : Sys} {tr' : List Event} {ls' : List Label}
    (h : system.Run ls s tr) (h' : system.Run ls' s' tr') {t u : Nat} (htu : t ≠ u)
    {stat stat' : Bytes → Option FileKind} {notModified notModified' : Bytes → Bool}
    {malloc malloc' : Nat → Option Bytes}
    (hmalloc : ∀ k block, malloc k = some block → block.length = k)
    (hmalloc' : ∀ k block, malloc' k = some block → block.length = k)
    {r r' : Except Fault (Except Overrun Answer)}
    (hr : s.answer t stat notModified malloc = some r)
    (hr' : s'.answer u stat' notModified' malloc' = some r') :
    ∃ a a', r = .ok (.ok a) ∧ r' = .ok (.ok a') ∧
      (∀ p, a.path = some p → ∃ st, (∀ c ∈ st, IsName c) ∧ p = below (rootBytes t) st) ∧
      (∀ p, a'.path = some p → ∃ st, (∀ c ∈ st, IsName c) ∧ p = below (rootBytes u) st) ∧
      ∀ p, a.path = some p → a'.path ≠ some p := by
  obtain ⟨a, ha, hbelow⟩ := Sys.answer_below h hmalloc hr
  obtain ⟨a', ha', hbelow'⟩ := Sys.answer_below h' hmalloc' hr'
  refine ⟨a, a', ha, ha', hbelow, hbelow', fun p hp hp' => ?_⟩
  obtain ⟨st, -, heq⟩ := hbelow p hp
  obtain ⟨st', -, heq'⟩ := hbelow' p hp'
  exact htu (below_rootBytes_inj (heq.symm.trans heq'))

/-- A disk on which both servers have `a.txt`. -/
def twoFiles (p : Bytes) : Option FileKind :=
  if p = cstr "./web-8000/a.txt" ∨ p = cstr "./web-8001/a.txt" then some .regular else none

/-- Both are asked for `/a.txt`. -/
theorem requestBoth_answers :
    ∃ s tr, system.Run (requestBoth (cstr "GET /a.txt HTTP/1.1\r\n\r\n")) s tr ∧
      s.answer 0 twoFiles (fun _ => false) (fun k => some (List.replicate k 0)) =
        some (.ok (.ok (.file (cstr "./web-8000/a.txt")))) ∧
      s.answer 1 twoFiles (fun _ => false) (fun k => some (List.replicate k 0)) =
        some (.ok (.ok (.file (cstr "./web-8001/a.txt")))) :=
  Machine.exists_run_of_check (M := system) (requestBoth (cstr "GET /a.txt HTTP/1.1\r\n\r\n"))
    (fun s _ => s.answer 0 twoFiles (fun _ => false) (fun k => some (List.replicate k 0)) =
        some (.ok (.ok (.file (cstr "./web-8000/a.txt")))) ∧
      s.answer 1 twoFiles (fun _ => false) (fun k => some (List.replicate k 0)) =
        some (.ok (.ok (.file (cstr "./web-8001/a.txt")))))
    (by decide +kernel)

/-- Two servers that are asked for the same. -/
theorem servers_share_no_file_two :
    ∃ s tr a a', system.Run (requestBoth (cstr "GET /a.txt HTTP/1.1\r\n\r\n")) s tr ∧
      s.answer 0 twoFiles (fun _ => false) (fun k => some (List.replicate k 0)) =
        some (.ok (.ok a)) ∧
      s.answer 1 twoFiles (fun _ => false) (fun k => some (List.replicate k 0)) =
        some (.ok (.ok a')) ∧
      a.path = some (cstr "./web-8000/a.txt") ∧ a'.path = some (cstr "./web-8001/a.txt") ∧
      (∃ st, (∀ c ∈ st, IsName c) ∧ cstr "./web-8000/a.txt" = below (rootBytes 0) st) ∧
      ∀ p, a.path = some p → a'.path ≠ some p := by
  obtain ⟨s, tr, hrun, h₀, h₁⟩ := requestBoth_answers
  have hmalloc : ∀ k block, (fun k => some (List.replicate k (0 : UInt8))) k = some block →
      block.length = k := fun k block hk => by rw [← Option.some.inj hk, List.length_replicate]
  obtain ⟨a, a', ha, ha', hbelow, -, hne⟩ :=
    servers_share_no_file hrun hrun (by decide) hmalloc hmalloc h₀ h₁
  cases ha
  cases ha'
  exact ⟨s, tr, _, _, hrun, h₀, h₁, rfl, rfl, hbelow _ rfl, hne⟩

end SimplestWeb.Minimal
