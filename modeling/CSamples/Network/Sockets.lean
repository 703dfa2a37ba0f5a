import Mathlib.Data.List.Basic

/-!
# `Network.Sockets` — `server_socket` and `client_socket`

Both functions of `network/server/server.c` and `network/client/client.c` (and of `network2`, the same text) go
through the addresses of `getaddrinfo` until one works. The server sets an option on each socket first.

## Contents
- **Model.** `socketLoop`, with every descriptor it opens in a ledger; `serverSocket` and `clientSocket`.
- **Specification.** `Right`: the first address that works, and nothing else left open.
- **The loop.** `socketLoop_prefix`: what is in the ledger stays; `socketLoop_closed_iff`: what is left open.
- **Both functions.** `sockets_right_iff`.
-/

namespace CSamples
namespace Network
namespace Sockets

/-! ## The model -/

/-- An entry of the address list: which of the calls made for it succeed. The last one is `bind` or `connect`. -/
structure Addr where
  socket     : Bool
  setsockopt : Bool
  last       : Bool
  deriving DecidableEq, Repr

/-- Which of the two functions; only the server calls `setsockopt`. -/
inductive Side where
  | server
  | client
  deriving DecidableEq, Repr

/-- A descriptor that `socket` returned: the index of the entry it was opened for, and how often it was closed. -/
structure Descriptor where
  entry  : Nat
  closes : Nat
  deriving DecidableEq, Repr

/-- The descriptors in the order they were opened; `soc`, as an index of it (none for -1); what `perror` printed. -/
structure State where
  ledger : List Descriptor
  soc    : Option Nat
  err    : List String
  deriving DecidableEq, Repr

/-- `soc = socket(...)` that succeeds, for the entry with an index. -/
def State.open (s : State) (i : Nat) : State :=
  { s with ledger := s.ledger ++ [⟨i, 0⟩], soc := some s.ledger.length }

/-- `close(soc)` -/
def State.close (s : State) : State :=
  match s.soc with
  | none     => s
  | some soc => { s with ledger := s.ledger.modify soc (fun d => { d with closes := d.closes + 1 }) }

/-- `perror`, which only the server calls here. -/
def State.perror (s : State) (side : Side) (text : String) : State :=
  if side = .server then { s with err := s.err ++ [text] } else s

/-- `for(rp = info; rp != NULL; rp = rp->ai_next){ ... }`, from the entry with an index; with `rp != NULL` behind it. -/
def socketLoop (side : Side) : Nat → List Addr → State → State × Bool
  | _, [], s           => (s, false)
  | i, rp :: infos, s =>
      if rp.socket = false then socketLoop side (i + 1) infos ({ s with soc := none }.perror side "socket")
      else
        let s := s.open i
        if side = .server ∧ rp.setsockopt = false then socketLoop side (i + 1) infos (s.perror side "setsockopt")
        else if rp.last then (s, true)
        else socketLoop side (i + 1) infos s.close

/-- What a call leaves: the descriptor it returns, none where it calls `exit`; the ledger and the messages. -/
structure Outcome where
  ret    : Option Nat
  ledger : List Descriptor
  err    : List String
  deriving DecidableEq, Repr

/-- What is printed in front of `exit(EXIT_FAILURE)`. -/
def Side.failure : Side → String
  | .server => "Could not bind\n"
  | .client => "Could not connect\n"

/-- The functions from `getnameinfo` on, which looks at the first entry; none where there is no entry to look at. -/
def makeSocket (side : Side) (getnameinfo : Bool) (infos : List Addr) : Option Outcome :=
  if infos = [] then none
  else if getnameinfo = false then some ⟨none, [], ["getnameinfo()"]⟩
  else
    let r := socketLoop side 0 infos ⟨[], none, []⟩
    some (if r.2 then ⟨r.1.soc, r.1.ledger, r.1.err⟩ else ⟨none, r.1.ledger, r.1.err ++ [side.failure]⟩)

def serverSocket : Bool → List Addr → Option Outcome := makeSocket .server
def clientSocket : Bool → List Addr → Option Outcome := makeSocket .client

/-! ## The specification -/

/-- Every call for the entry succeeds. -/
def Addr.works (side : Side) (rp : Addr) : Bool := rp.socket && (side == .client || rp.setsockopt) && rp.last

/-- Every descriptor was closed once, but for the one at an index, which is open. -/
def Closed (ledger : List Descriptor) (except : Option Nat) : Prop :=
  ∀ d x, ledger[d]? = some x → x.closes = if some d = except then 0 else 1

/-- The descriptor of the first entry that works is returned, there is none only if no entry works, and every other
    descriptor was closed once. -/
structure Right (side : Side) (infos : List Addr) (o : Outcome) : Prop where
  first  : o.ret.bind (fun d => o.ledger[d]?.map Descriptor.entry) = infos.findIdx? (Addr.works side)
  gaveUp : o.ret = none → ∀ rp ∈ infos, rp.works side = false
  closed : Closed o.ledger o.ret

/-- The descriptor of the entry is forgotten: the option of its socket cannot be set. -/
def Addr.leaks (side : Side) (rp : Addr) : Bool := rp.socket && side == .server && !rp.setsockopt

/-- No entry in front of the first that works is one of those. -/
def NoLeak (side : Side) (infos : List Addr) : Prop :=
  ∀ rp ∈ infos.takeWhile (fun rp => !rp.works side), rp.leaks side = false

/-! ## The loop -/

@[simp] theorem perror_ledger (s : State) (side : Side) (text : String) : (s.perror side text).ledger = s.ledger := by
  unfold State.perror
  split_ifs <;> rfl

@[simp] theorem open_ledger (s : State) (i : Nat) : (s.open i).ledger = s.ledger ++ [⟨i, 0⟩] := rfl

/-- A descriptor that is opened and closed. -/
@[simp] theorem close_open_ledger (s : State) (i : Nat) : (s.open i).close.ledger = s.ledger ++ [⟨i, 1⟩] := by
  show (s.ledger ++ [Descriptor.mk i 0]).modify s.ledger.length _ = _
  exact List.modifyTailIdx_add _ 0 s.ledger _

/-- **One entry**, by how it ends. -/
theorem socketLoop_cons (side : Side) (i : Nat) (rp : Addr) (infos : List Addr) (s : State) :
    (rp.works side = true ∧ socketLoop side i (rp :: infos) s = (s.open i, true)) ∨
    (rp.works side = false ∧ ∃ s', socketLoop side i (rp :: infos) s = socketLoop side (i + 1) infos s' ∧
      ((rp.leaks side = true ∧ s'.ledger = s.ledger ++ [⟨i, 0⟩]) ∨
        (rp.leaks side = false ∧ (s'.ledger = s.ledger ∨ s'.ledger = s.ledger ++ [⟨i, 1⟩])))) := by
  unfold Addr.works Addr.leaks
  rw [socketLoop]
  cases hsocket : rp.socket with
  | false =>
      right
      rw [if_pos rfl]
      refine ⟨rfl, _, rfl, .inr ⟨rfl, .inl ?_⟩⟩
      exact perror_ledger ..
  | true =>
      rw [if_neg (by decide)]
      by_cases hopt : side = .server ∧ rp.setsockopt = false
      · right
        obtain ⟨rfl, hfail⟩ := hopt
        rw [hfail]
        refine ⟨rfl, _, rfl, .inl ⟨rfl, ?_⟩⟩
        exact perror_ledger ..
      · have hset : (side == .client || rp.setsockopt) = true ∧ (side == .server && !rp.setsockopt) = false := by
          cases side <;> cases h : rp.setsockopt <;> simp_all
        dsimp only
        rw [if_neg hopt, Bool.true_and, Bool.true_and, hset.1, hset.2]
        cases hlast : rp.last with
        | true =>
            left
            exact ⟨rfl, rfl⟩
        | false =>
            right
            refine ⟨rfl, _, rfl, .inr ⟨rfl, .inr ?_⟩⟩
            exact close_open_ledger s i

/-- What is in the ledger stays, and none of it is returned. -/
theorem socketLoop_prefix (side : Side) (infos : List Addr) (i : Nat) (s : State) :
    ∃ more, (socketLoop side i infos s).1.ledger = s.ledger ++ more ∧
      ((socketLoop side i infos s).2 = true → ∃ d, (socketLoop side i infos s).1.soc = some d ∧ s.ledger.length ≤ d) := by
  induction infos generalizing i s with
  | nil => exact ⟨[], (List.append_nil _).symm, fun h => absurd h (by simp [socketLoop])⟩
  | cons rp infos ih =>
      rcases socketLoop_cons side i rp infos s with ⟨-, hloop⟩ | ⟨-, s', hloop, hledger⟩
      · rw [hloop]
        exact ⟨[⟨i, 0⟩], rfl, fun _ => ⟨s.ledger.length, rfl, Nat.le_refl _⟩⟩
      · obtain ⟨more, hmore, hret⟩ := ih (i + 1) s'
        have hpre : ∃ added, s'.ledger = s.ledger ++ added := by
          rcases hledger with ⟨-, h⟩ | ⟨-, h | h⟩
          · exact ⟨_, h⟩
          · exact ⟨[], by rw [h, List.append_nil]⟩
          · exact ⟨_, h⟩
        obtain ⟨added, hadded⟩ := hpre
        rw [hloop]
        refine ⟨added ++ more, by rw [hmore, hadded, List.append_assoc], ?_⟩
        intro hfound
        obtain ⟨d, hd, hle⟩ := hret hfound
        rw [hadded, List.length_append] at hle
        exact ⟨d, hd, Nat.le_of_add_right_le hle⟩

/-- What the loop returns: the descriptor that `soc` holds where it was left early. -/
def loopRet (r : State × Bool) : Option Nat := if r.2 then r.1.soc else none

/-- **The loop finds the first entry that works.** -/
theorem socketLoop_first (side : Side) (infos : List Addr) (i : Nat) (s : State) :
    (loopRet (socketLoop side i infos s)).bind
        (fun d => (socketLoop side i infos s).1.ledger[d]?.map Descriptor.entry) =
      (infos.findIdx? (Addr.works side)).map (· + i) := by
  induction infos generalizing i s with
  | nil => rfl
  | cons rp infos ih =>
      rw [List.findIdx?_cons]
      rcases socketLoop_cons side i rp infos s with ⟨hworks, hloop⟩ | ⟨hworks, s', hloop, -⟩
      · rw [hloop, hworks, if_pos rfl]
        simp [loopRet, State.open]
      · rw [hloop, hworks, if_neg (by decide), ih, Option.map_map]
        congr 1
        funext k
        exact Nat.add_right_comm k i 1

theorem noLeak_cons {side : Side} {rp : Addr} (infos : List Addr) (hworks : rp.works side = false) :
    NoLeak side (rp :: infos) ↔ rp.leaks side = false ∧ NoLeak side infos := by
  unfold NoLeak
  rw [List.takeWhile_cons, hworks]
  exact List.forall_mem_cons

theorem open_closed {i : Nat} {s : State} (hs : ∀ x ∈ s.ledger, x.closes = 1) {d : Nat} {x : Descriptor}
    (hx : (s.open i).ledger[d]? = some x) : x.closes = if some d = loopRet (s.open i, true) then 0 else 1 := by
  rw [open_ledger, List.getElem?_append] at hx
  show _ = if some d = some s.ledger.length then 0 else 1
  split_ifs at hx with hd
  · rw [if_neg (fun h => Nat.ne_of_lt hd (Option.some.inj h))]
    exact hs x (List.mem_of_getElem? hx)
  · cases hk : d - s.ledger.length with
    | zero =>
        rw [hk] at hx
        obtain rfl := Option.some.inj hx
        rw [if_pos (congrArg some (by omega))]
    | succ k =>
        rw [hk] at hx
        exact absurd hx (by simp)

/-- **The loop closes what it does not return** exactly when no descriptor is forgotten. -/
theorem socketLoop_closed_iff (side : Side) (infos : List Addr) (i : Nat) (s : State)
    (hs : ∀ x ∈ s.ledger, x.closes = 1) :
    Closed (socketLoop side i infos s).1.ledger (loopRet (socketLoop side i infos s)) ↔ NoLeak side infos := by
  induction infos generalizing i s with
  | nil =>
      refine iff_of_true ?_ ?_
      · intro d x hx
        exact hs x (List.mem_of_getElem? hx)
      · intro rp hrp
        exact absurd hrp (by simp)
  | cons rp infos ih =>
      rcases socketLoop_cons side i rp infos s with ⟨hworks, hloop⟩ | ⟨hworks, s', hloop, hledger⟩
      · rw [hloop]
        refine iff_of_true ?_ ?_
        · intro d x hx
          exact open_closed hs hx
        · intro x hx
          rw [List.takeWhile_cons, hworks] at hx
          exact absurd hx (by simp)
      · rw [hloop, noLeak_cons infos hworks]
        rcases hledger with ⟨hleak, hnew⟩ | ⟨hkept, hnew⟩
        · -- the forgotten descriptor stays open
          rw [hleak]
          refine iff_of_false ?_ (fun h => absurd h.1 (by decide))
          intro hclosed
          obtain ⟨more, hmore, hret⟩ := socketLoop_prefix side infos (i + 1) s'
          have hopen := hclosed s.ledger.length ⟨i, 0⟩ (by rw [hmore, hnew]; simp)
          have hother : loopRet (socketLoop side (i + 1) infos s') ≠ some s.ledger.length := by
            intro heq
            unfold loopRet at heq
            split_ifs at heq with hfound
            obtain ⟨d, hd, hle⟩ := hret hfound
            rw [hd, Option.some.injEq] at heq
            rw [heq, hnew, List.length_append] at hle
            exact absurd hle (Nat.not_succ_le_self _)
          rw [if_neg (Ne.symm hother)] at hopen
          exact Nat.zero_ne_one hopen
        · rw [ih (i + 1) s' ?_, hkept]
          · exact ⟨fun h => ⟨rfl, h⟩, fun h => h.2⟩
          · intro x hx
            rcases hnew with hnew | hnew
            · rw [hnew] at hx
              exact hs x hx
            · rw [hnew] at hx
              rcases List.mem_append.mp hx with hx | hx
              · exact hs x hx
              · rw [List.mem_singleton.mp hx]

/-! ## Both functions -/

theorem right_iff (side : Side) {infos : List Addr} (hne : infos ≠ []) :
    (∃ o, makeSocket side true infos = some o ∧ Right side infos o) ↔ NoLeak side infos := by
  have hfirst := socketLoop_first side infos 0 ⟨[], none, []⟩
  have hclosed := socketLoop_closed_iff side infos 0 ⟨[], none, []⟩ (fun x hx => absurd hx List.not_mem_nil)
  have hmake : ∃ err, makeSocket side true infos = some ⟨loopRet (socketLoop side 0 infos ⟨[], none, []⟩),
      (socketLoop side 0 infos ⟨[], none, []⟩).1.ledger, err⟩ := by
    unfold makeSocket loopRet
    rw [if_neg hne, if_neg (by decide)]
    cases hfound : (socketLoop side 0 infos ⟨[], none, []⟩).2 with
    | true => exact ⟨_, by simp only [hfound, if_true]; rfl⟩
    | false => exact ⟨_, by simp only [hfound, Bool.false_eq_true, if_false]; rfl⟩
  obtain ⟨err, hmake⟩ := hmake
  have hzero : (fun k => k + 0) = (id : Nat → Nat) := rfl
  rw [hzero, Option.map_id, id] at hfirst
  constructor
  · rintro ⟨o, ho, hright⟩
    obtain rfl := Option.some.inj (hmake.symm.trans ho)
    exact hclosed.mp hright.closed
  · intro hleak
    refine ⟨_, hmake, hfirst, ?_, hclosed.mpr hleak⟩
    intro hnone rp hrp
    rw [show loopRet _ = none from hnone] at hfirst
    exact List.findIdx?_eq_none_iff.mp hfirst.symm rp hrp

/-- **Both functions**: where `getnameinfo` succeeds, `server_socket` returns the descriptor of the first entry that
    works with every other one closed once, or gives up because none works with all of them closed, if and only if the
    option could be set on every socket that was opened in front of that entry; `client_socket` always does. -/
theorem sockets_right_iff {infos : List Addr} (hne : infos ≠ []) :
    ((∃ o, serverSocket true infos = some o ∧ Right .server infos o) ↔
      ∀ rp ∈ infos.takeWhile (fun rp => !rp.works .server), rp.socket = true → rp.setsockopt = true) ∧
    ∃ o, clientSocket true infos = some o ∧ Right .client infos o := by
  constructor
  · apply (right_iff .server hne).trans
    unfold NoLeak Addr.leaks
    refine forall₂_congr fun rp _ => ?_
    cases rp.socket <;> cases rp.setsockopt <;> decide
  · apply (right_iff .client hne).mpr
    intro rp _
    unfold Addr.leaks
    cases rp.socket <;> cases rp.setsockopt <;> rfl

/-- The first entry has no socket, the second cannot be bound, the third works. -/
theorem sockets_right_third :
    ∃ o, serverSocket true [⟨false, true, true⟩, ⟨true, true, false⟩, ⟨true, true, true⟩] = some o ∧
      Right .server [⟨false, true, true⟩, ⟨true, true, false⟩, ⟨true, true, true⟩] o :=
  (sockets_right_iff (List.cons_ne_nil _ _)).1.mpr (by decide)

/-- The option cannot be set on the first socket: it is neither closed nor returned. -/
theorem sockets_forgotten :
    serverSocket true [⟨true, false, true⟩, ⟨true, true, true⟩] = some ⟨some 1, [⟨0, 0⟩, ⟨1, 0⟩], ["setsockopt"]⟩ ∧
      ¬ Closed [⟨0, 0⟩, ⟨1, 0⟩] (some 1) := by
  constructor
  · decide
  · intro h
    exact Nat.zero_ne_one (h 0 ⟨0, 0⟩ rfl)

end Sockets
end Network
end CSamples
