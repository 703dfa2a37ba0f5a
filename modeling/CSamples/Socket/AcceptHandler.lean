import CSamples.Machine.Runs
import CSamples.Socket.CmdHandler

/-!
# `Socket.AcceptHandler` — who owns the descriptors of the echo service

`accept_handler` of `socket/server/accept_handler.c` puts an event from `malloc` over each descriptor `accept`
returns; from then on `recv_handler`, called for that event, gives back both. Any number of connections are served
by one event loop in any order.

## Contents
- **Model.** `step`, one callback over the descriptors and the events of all connections.
- **Ownership.** `Owned`: closed once, or under exactly one live registered event.
- **Callbacks.** `accept_owned_iff` and `recv_owned_iff`.
- **Whole runs.** `echo_owned_iff`.
-/

namespace CSamples
namespace Socket
namespace AcceptHandler

open C
open CmdHandler (Accept)

/-! ## The model -/

/-- An event from `malloc`, the descriptor it was set for, and whether it is allocated and registered. -/
structure Event where
  acc        : Nat
  allocated  : Bool
  registered : Bool

/-- The descriptors `accept` returned, in order, with how often each was closed; and the events, in order. -/
structure State where
  closes : List Nat
  events : List Event

/-- What the event loop calls: `accept_handler`, or `recv_handler` for the event with a number. What the calls of
    the system return in it is given, and what the stack buffer of `recv_handler` holds before. -/
inductive Callback where
  | accept (a : Accept)
  | recv (e : Nat) (buf : Mem) (size : buf.length = sizeofBuf) (input : Input) (sendFails : Bool)

/-- `accept_handler`: the descriptor stays open where there is no event for it. -/
def acceptHandler (s : State) : Accept → State
  | .acceptFails   => s
  | .mallocFails   => ⟨s.closes ++ [0], s.events⟩
  | .eventAddFails => ⟨s.closes ++ [0], s.events ++ [⟨s.closes.length, false, false⟩]⟩
  | .registered    => ⟨s.closes ++ [0], s.events ++ [⟨s.closes.length, true, true⟩]⟩

/-- `event_del(ev); free(ev); close(acc);` for the event with number `e`. -/
def release (s : State) (e : Nat) (ev : Event) : State :=
  ⟨s.closes.modify ev.acc (· + 1), s.events.set e { ev with allocated := false, registered := false }⟩

/-- One callback; only registered events get one. -/
def step (s : State) : Callback → Option State
  | .accept a => some (acceptHandler s a)
  | .recv e buf _ input sendFails =>
      match s.events[e]? with
      | none    => some s
      | some ev =>
          if ev.registered then do
            let o ← recvHandler buf input sendFails
            some (if o.closed then release s e ev else s)
          else some s

/-- Before the first connection. -/
def State.init : State := ⟨[], []⟩

/-! ## Ownership -/

/-- The event is there, and `recv_handler` will be called for it with the descriptor `d`. -/
def Event.owns (d : Nat) (e : Event) : Bool := e.allocated && e.registered && e.acc == d

/-- How many live registered events the descriptor is under. -/
def State.owners (s : State) (d : Nat) : Nat := s.events.countP (Event.owns d)

/-- The descriptor was closed once and is under no event, or it is open and under one. -/
def Owned (s : State) (d : Nat) : Prop :=
  (s.closes[d]? = some 1 ∧ s.owners d = 0) ∨ (s.closes[d]? = some 0 ∧ s.owners d = 1)

/-- Every descriptor that was returned is. -/
def Kept (s : State) : Prop := ∀ d < s.closes.length, Owned s d

/-- Every event is over a descriptor that was returned, and a registered one is allocated. -/
def Wf (s : State) : Prop := ∀ e ∈ s.events, e.acc < s.closes.length ∧ (e.registered = true → e.allocated = true)

theorem wf_init : Wf State.init := by simp [Wf, State.init]

theorem kept_init : Kept State.init := by simp [Kept, State.init]

/-- A new descriptor is under no event that was there before. -/
theorem Wf.owners_new {s : State} (hs : Wf s) : s.owners s.closes.length = 0 := by
  rw [State.owners, List.countP_eq_zero]
  intro e he
  have hne : e.acc ≠ s.closes.length := Nat.ne_of_lt (hs e he).1
  simp [Event.owns, hne]

theorem Wf.accept {s : State} (hs : Wf s) (a : Accept) : Wf (acceptHandler s a) := by
  have hold : ∀ e ∈ s.events, e.acc < (s.closes ++ [0]).length ∧ (e.registered = true → e.allocated = true) := by
    intro e he
    have := hs e he
    rw [List.length_append]
    exact ⟨Nat.lt_add_right _ this.1, this.2⟩
  intro e he
  cases a with
  | acceptFails => exact hs e he
  | mallocFails => exact hold e he
  | eventAddFails | registered =>
      rcases List.mem_append.mp he with he | he
      · exact hold e he
      · obtain rfl := List.mem_singleton.mp he
        simp [acceptHandler]

theorem Wf.release {s : State} (hs : Wf s) {e : Nat} {ev : Event} (he : s.events[e]? = some ev) :
    Wf (release s e ev) := by
  intro x hx
  have hlen : (AcceptHandler.release s e ev).closes.length = s.closes.length := List.length_modify ..
  rw [hlen]
  rcases List.mem_or_eq_of_mem_set hx with hx | rfl
  · exact hs x hx
  · exact ⟨(hs ev (List.mem_of_getElem? he)).1, nofun⟩

/-! ## Callbacks -/

/-- **`accept_handler`** keeps every descriptor owned unless it returns without an event. -/
theorem accept_owned_iff {s : State} (hw : Wf s) (hs : Kept s) (a : Accept) :
    Kept (acceptHandler s a) ↔ a ≠ .mallocFails ∧ a ≠ .eventAddFails := by
  -- what is under no event when it is returned is not owned
  have hleak : ∀ evs : List Event, State.owners ⟨s.closes ++ [0], evs⟩ s.closes.length = 0 →
      ¬ Kept ⟨s.closes ++ [0], evs⟩ := by
    intro evs hnone h
    rcases h s.closes.length (by simp) with ⟨hc, -⟩ | ⟨-, ho⟩
    · simp at hc
    · rw [hnone] at ho
      exact absurd ho (by simp)
  cases a with
  | acceptFails => exact ⟨fun _ => ⟨nofun, nofun⟩, fun _ => hs⟩
  | mallocFails => exact ⟨fun h => absurd h (hleak _ hw.owners_new), fun h => absurd rfl h.1⟩
  | eventAddFails =>
      refine ⟨fun h => absurd h (hleak _ ?_), fun h => absurd rfl h.2⟩
      rw [State.owners, List.countP_append, ← State.owners, hw.owners_new]
      rfl
  | registered =>
      refine ⟨fun _ => ⟨nofun, nofun⟩, fun _ d hd => ?_⟩
      have howners : State.owners (acceptHandler s .registered) d =
          s.owners d + if s.closes.length = d then 1 else 0 := by
        rw [State.owners, acceptHandler, List.countP_append, ← State.owners, List.countP_singleton]
        simp [Event.owns]
      rw [acceptHandler, List.length_append, List.length_singleton] at hd
      rw [Owned, howners]
      by_cases hnew : d = s.closes.length
      · subst hnew
        right
        rw [if_pos rfl, hw.owners_new]
        exact ⟨by simp [acceptHandler], rfl⟩
      · have hlt : d < s.closes.length := by omega
        rw [if_neg (Ne.symm hnew), Nat.add_zero, acceptHandler, List.getElem?_append_left hlt]
        exact hs d hlt

/-- Giving back an event and its descriptor. -/
theorem Kept.release {s : State} (hw : Wf s) (hs : Kept s) {e : Nat} {ev : Event} (he : s.events[e]? = some ev)
    (hreg : ev.registered = true) : Kept (release s e ev) := by
  obtain ⟨hlt, hev⟩ := List.getElem?_eq_some_iff.mp he
  obtain ⟨hacc, halloc⟩ := hw ev (List.mem_of_getElem? he)
  intro d hd
  rw [AcceptHandler.release, List.length_modify] at hd
  -- the event counts for its own descriptor only
  have howners : State.owners (AcceptHandler.release s e ev) d = s.owners d - if ev.acc = d then 1 else 0 := by
    rw [State.owners, AcceptHandler.release, List.countP_set hlt, hev, ← State.owners]
    simp [Event.owns, hreg, halloc hreg]
  rw [Owned, howners]
  by_cases hown : ev.acc = d
  · -- it was open and under this event
    have hpos : 0 < s.owners d := by
      rw [State.owners, List.countP_pos_iff]
      exact ⟨ev, List.mem_of_getElem? he, by simp [Event.owns, hreg, halloc hreg, hown]⟩
    rcases hs d hd with ⟨-, ho⟩ | ⟨hc, ho⟩
    · omega
    · left
      refine ⟨?_, by rw [if_pos hown]; omega⟩
      rw [AcceptHandler.release, hown, List.getElem?_modify_eq, hc]
      rfl
  · rw [if_neg hown, Nat.sub_zero, AcceptHandler.release, List.getElem?_modify_ne (h := hown)]
    exact hs d hd

/-- What the model of `recv_handler` is defined for. -/
theorem recvHandler_isSome_iff {buf : Mem} (size : buf.length = sizeofBuf) (input : Input) (sendFails : Bool) :
    (∃ o, recvHandler buf input sendFails = some o) ↔ ∀ bytes, input = .data bytes → bytes.length < sizeofBuf := by
  cases input with
  | error => exact ⟨fun _ => nofun, fun _ => ⟨_, rfl⟩⟩
  | data bytes =>
      constructor
      · rintro ⟨o, ho⟩ bytes' hb
        obtain rfl := Input.data.inj hb
        by_contra hfull
        rw [recvHandler_full size (Nat.not_lt.mp hfull)] at ho
        exact absurd ho nofun
      · intro h
        by_cases hne : bytes = []
        · subst hne
          exact ⟨_, rfl⟩
        · exact ⟨_, recvHandler_data size hne (h bytes rfl) sendFails⟩

/-- **`recv_handler`** keeps every descriptor owned if it stays inside its array. -/
theorem recv_owned_iff {s : State} (hw : Wf s) (hs : Kept s) (e : Nat) {buf : Mem} (size : buf.length = sizeofBuf)
    (input : Input) (sendFails : Bool) :
    (∃ s', step s (.recv e buf size input sendFails) = some s' ∧ Kept s') ↔
      ∀ ev, s.events[e]? = some ev → ev.registered = true → ∀ bytes, input = .data bytes → bytes.length < sizeofBuf := by
  cases he : s.events[e]? with
  | none =>
      refine ⟨fun _ => nofun, fun _ => ⟨s, ?_, hs⟩⟩
      rw [step, he]
  | some ev =>
      by_cases hreg : ev.registered = true
      · have hgood : (∀ ev', some ev = some ev' → ev'.registered = true →
            ∀ bytes, input = .data bytes → bytes.length < sizeofBuf) ↔
            ∃ o, recvHandler buf input sendFails = some o := by
          rw [recvHandler_isSome_iff size]
          exact ⟨fun h => h ev rfl hreg, fun h _ _ _ => h⟩
        rw [hgood]
        constructor
        · rintro ⟨s', h, -⟩
          rw [step, he] at h
          dsimp only at h
          rw [if_pos hreg] at h
          obtain ⟨o, ho, -⟩ := Option.bind_eq_some_iff.mp h
          exact ⟨o, ho⟩
        · rintro ⟨o, ho⟩
          refine ⟨if o.closed then release s e ev else s, ?_, ?_⟩
          · rw [step, he]
            dsimp only
            rw [if_pos hreg, ho]
            rfl
          · split
            · exact hs.release hw he hreg
            · exact hs
      · refine ⟨fun _ ev' he' hreg' => ?_, fun _ => ⟨s, ?_, hs⟩⟩
        · rw [Option.some.inj he'] at hreg
          exact absurd hreg' hreg
        · rw [step, he]
          dsimp only
          rw [if_neg hreg]

/-! ## Whole runs -/

/-- What a callback must not meet: an acceptor without an event for its descriptor, or a message that fills the array
    of the handler it is received in. -/
def Orderly (s : State) : Callback → Prop
  | .accept a              => a ≠ .mallocFails ∧ a ≠ .eventAddFails
  | .recv e _ _ input _    =>
      ∀ ev, s.events[e]? = some ev → ev.registered = true → ∀ bytes, input = .data bytes → bytes.length < sizeofBuf

theorem step_wf (s : State) (cb : Callback) (s' : State) (hs : Wf s) (h : step s cb = some s') : Wf s' := by
  cases cb with
  | accept a => exact Option.some.inj h ▸ hs.accept a
  | recv e buf size input sendFails =>
      rw [step] at h
      cases he : s.events[e]? with
      | none =>
          rw [he] at h
          exact Option.some.inj h ▸ hs
      | some ev =>
          rw [he] at h
          dsimp only at h
          split at h
          · obtain ⟨o, -, ho⟩ := Option.bind_eq_some_iff.mp h
            rw [← Option.some.inj ho]
            split
            · exact hs.release he
            · exact hs
          · exact Option.some.inj h ▸ hs

theorem step_kept_iff (s : State) (cb : Callback) (hw : Wf s) (hs : Kept s) :
    (∃ s', step s cb = some s' ∧ Kept s') ↔ Orderly s cb := by
  cases cb with
  | accept a =>
      rw [Orderly, ← accept_owned_iff hw hs a]
      constructor
      · rintro ⟨s', h, hk⟩
        rwa [Option.some.inj h]
      · exact fun h => ⟨_, rfl, h⟩
  | recv e buf size input sendFails => exact recv_owned_iff hw hs e size input sendFails

/-- **No descriptor of the echo service is leaked or closed twice**, over any number of connections and any order of
    their callbacks, exactly as long as no accepted descriptor fails to get its event and no message fills the array
    of `recv_handler`. -/
theorem echo_owned_iff (cbs : List Callback) :
    Machine.Throughout step Kept cbs State.init ↔ Machine.Along step Orderly State.init cbs :=
  Machine.throughout_iff_of_invariant step_wf step_kept_iff cbs wf_init kept_init

/-- **A descriptor that is leaked**: `event_add` fails for it. -/
theorem echo_leak :
    ∃ s, step State.init (.accept .eventAddFails) = some s ∧ s.closes[0]? = some 0 ∧ s.owners 0 = 0 ∧ ¬ Kept s := by
  refine ⟨_, rfl, rfl, rfl, fun h => ?_⟩
  exact absurd rfl ((accept_owned_iff wf_init kept_init .eventAddFails).mp h).2

end AcceptHandler
end Socket
end CSamples
