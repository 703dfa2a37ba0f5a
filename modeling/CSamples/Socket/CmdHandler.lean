import CSamples.Socket.RecvHandler

/-!
# `Socket.CmdHandler` — the command service of the socket server

`accept_cmd` and `receive_cmd` of `socket/server/cmd_handler.c` (and of `daemon`, which are the same): a message is
run as a command and its output sent back piece by piece. The event of the connection and its descriptor are given
back on five branches; after two of them `receive_cmd` goes on.

## Contents
- **Model.** `receiveCmd` and `acceptCmd`, as what they do with the event and the descriptor, in order; `service`
  is a connection with any number of calls.
- **Ownership.** `Safe`: nothing given back twice or used after it, and nothing undefined.
- **One call.** `receiveCmd_eq`, `safe_receiveCmd_iff`.
- **Whole runs.** `service_safe_iff`.
-/

namespace CSamples
namespace Socket
namespace CmdHandler

open C

/-! ## The model -/

/-- What is done with the event `ev`, the descriptor `acc` and the pipe. `undefined` ends a run: a store outside
    `buf`, or `fgets` on the null pointer. -/
inductive Op where
  | accept
  | eventSet
  | eventAdd
  | eventDel
  | freeEv
  | send (bytes : List UInt8)
  | close
  | popen (cmd : List UInt8)
  | pclose
  | loopexit
  | undefined
  deriving DecidableEq

/-- What one `fgets(line, 128, pipe)` stores, and whether the `send` of it fails. -/
structure Piece where
  bytes     : List UInt8
  sendFails : Bool
  fits      : bytes.length ≤ 127

/-- One call: the stale content of the stack buffer, what `recv` does, and what the command writes (`none` where
    `popen` fails). -/
structure Call where
  buf   : Mem
  recv  : Input
  popen : Option (List Piece)
  size  : buf.length = sizeofBuf

/-- `event_del(ev); free(ev); close(acc);` -/
def release : List Op := [.eventDel, .freeEv, .close]

/-- `while(1){ p = fgets(line, 128, pipe); if(!p){ break; } ... }`; what is sent of a piece is in front of its first
    NUL, and there is no way out of the loop where that fails. -/
def sendLoop : List Piece → List Op
  | []      => []
  | d :: ds =>
      .send (d.bytes.takeWhile (fun b => b ≠ 0)) :: (if d.sendFails then release else []) ++ sendLoop ds

/-- From `popen(buf, "r")` on. Where it fails the branch gives everything back and falls through to `fgets`. -/
def runCmd (cmd : List UInt8) : Option (List Piece) → List Op
  | none    => .popen cmd :: release ++ [.loopexit, .undefined]
  | some ds => .popen cmd :: sendLoop ds ++ [.pclose]

/-- `receive_cmd` -/
def receiveCmd (c : Call) : List Op :=
  match c.recv with
  | .error      => release
  | .data bytes =>
      if bytes.length = 0 then release
      else
        let ops : Option (List Op) := do
          let buf ← blit c.buf 0 bytes
          let buf ← store buf bytes.length 0
          let buf ← cutLine buf
          let stop ← strEq buf shutdown
          let cmd ← strAt buf 0
          some (if stop then release ++ [.loopexit] else runCmd cmd c.popen)
        ops.getD [.undefined]

/-- What goes wrong in `accept_cmd`, if anything. -/
inductive Accept where
  | acceptFails
  | mallocFails
  | eventAddFails
  | registered
  deriving DecidableEq

/-- `accept_cmd` -/
def acceptCmd : Accept → List Op
  | .acceptFails   => []
  | .mallocFails   => [.accept]
  | .eventAddFails => [.accept, .eventSet, .eventAdd, .freeEv]
  | .registered    => [.accept, .eventSet, .eventAdd]

/-- The calls of one connection, as long as its event is registered. -/
def calls : List Call → List Op
  | []      => []
  | c :: cs =>
      let ops := receiveCmd c
      if .eventDel ∈ ops ∨ .undefined ∈ ops then ops else ops ++ calls cs

/-- One connection. -/
def service (a : Accept) (cs : List Call) : List Op :=
  acceptCmd a ++ if a = .registered then calls cs else []

/-! ## Ownership -/

/-- `ev` is used or freed. -/
def Op.usesEvent : Op → Bool
  | .eventSet | .eventAdd | .eventDel | .freeEv => true
  | _                                           => false

/-- `acc` is sent to or closed. -/
def Op.usesSocket : Op → Bool
  | .send _ | .close => true
  | _                => false

/-- What may come after what: once freed the event is not used or freed, and once closed the descriptor is not sent
    to or closed. -/
def Allowed (a b : Op) : Prop := (a = .freeEv → b.usesEvent = false) ∧ (a = .close → b.usesSocket = false)

instance : DecidableRel Allowed := fun _ _ => inferInstanceAs (Decidable (_ ∧ _))

/-- The order of any two steps is allowed, and none is undefined. -/
structure Safe (ops : List Op) : Prop where
  defined : .undefined ∉ ops
  order   : ops.Pairwise Allowed

instance (ops : List Op) : Decidable (Safe ops) :=
  decidable_of_iff (.undefined ∉ ops ∧ ops.Pairwise Allowed) ⟨fun h => ⟨h.1, h.2⟩, fun h => ⟨h.1, h.2⟩⟩

/-- Steps that give nothing back. -/
def Quiet (a : Op) : Prop := a ≠ .freeEv ∧ a ≠ .close ∧ a ≠ .undefined

theorem Quiet.allowed {a : Op} (h : Quiet a) (b : Op) : Allowed a b :=
  ⟨fun ha => absurd ha h.1, fun ha => absurd ha h.2.1⟩

/-- What is done behind quiet steps decides. -/
theorem safe_append_iff {ops ops' : List Op} (h : ∀ a ∈ ops, Quiet a) : Safe (ops ++ ops') ↔ Safe ops' := by
  constructor
  · rintro ⟨hd, ho⟩
    exact ⟨fun hm => hd (List.mem_append_right _ hm), (List.pairwise_append.mp ho).2.1⟩
  · rintro ⟨hd, ho⟩
    refine ⟨fun hm => ?_, List.pairwise_append.mpr ⟨?_, ho, fun a ha b _ => (h a ha).allowed b⟩⟩
    · rcases List.mem_append.mp hm with hm | hm
      · exact (h _ hm).2.2 rfl
      · exact hd hm
    · exact List.pairwise_of_forall_mem_list fun a ha b _ => (h a ha).allowed b

/-! ## One call -/

/-- What a call does, by what is received. -/
theorem receiveCmd_eq (c : Call) :
    receiveCmd c =
      match c.recv with
      | .error      => release
      | .data bytes =>
          if bytes = [] then release
          else if sizeofBuf ≤ bytes.length then [.undefined]
          else if firstLine bytes = shutdown then release ++ [.loopexit]
          else runCmd (firstLine bytes) c.popen := by
  unfold receiveCmd
  cases c.recv with
  | error => rfl
  | data bytes =>
      dsimp only
      by_cases hne : bytes = []
      · subst hne
        rfl
      rw [if_neg hne, if_neg (fun h => hne (List.eq_nil_of_length_eq_zero h))]
      rcases Nat.lt_or_ge bytes.length sizeofBuf with hlt | hge
      · obtain ⟨b₁, b₂, r, hblit, hstore, hcut, -⟩ := cut_message c.size hlt
        have hline := not_mem_firstLine bytes
        have hword : strEq (firstLine bytes ++ 0 :: r) shutdown = some (decide (firstLine bytes = shutdown)) :=
          strEq_append_nul hline (by decide) r
        have hstr : strAt (firstLine bytes ++ 0 :: r) 0 = some (firstLine bytes) := cstr_append_nul hline r
        rw [if_neg (Nat.not_le.mpr hlt), hblit]
        simp only [Option.bind_eq_bind, Option.bind_some, hstore, hcut, hword, hstr,
          Option.getD_some, decide_eq_true_eq]
      · rw [if_pos hge]
        simp only [Option.bind_eq_bind]
        rw [← Option.bind_assoc, terminate_full c.size hge]
        rfl

theorem safe_release : Safe release := by decide

/-- The loop is safe when only the last piece cannot be sent. -/
theorem safe_sendLoop_iff (ds : List Piece) :
    Safe (sendLoop ds ++ [.pclose]) ↔ ∀ d ∈ ds.dropLast, d.sendFails = false := by
  induction ds with
  | nil => exact ⟨fun _ => by simp, fun _ => by decide⟩
  | cons d ds ih =>
      have hsend : ∀ ops, Safe (.send (d.bytes.takeWhile (fun b => b ≠ 0)) :: ops) ↔ Safe ops := fun ops =>
        @safe_append_iff [.send _] ops (by simp [Quiet])
      rw [sendLoop, List.cons_append, List.cons_append, hsend]
      cases hd : d.sendFails with
      | false =>
          rw [if_neg (by simp), List.nil_append, ih]
          cases ds with
          | nil => simp
          | cons e ds => simp [hd]
      | true =>
          rw [if_pos rfl]
          cases ds with
          | nil => exact ⟨fun _ => by simp, fun _ => by decide⟩
          | cons e ds =>
              -- the next piece is sent to the closed descriptor
              constructor
              · intro h
                have horder := (List.pairwise_append.mp (List.pairwise_append.mp h.order).1).2.2 .close (by simp [release])
                  _ (List.mem_cons_self ..)
                exact absurd (horder.2 rfl) nofun
              · intro h
                have := h d (by simp)
                rw [hd] at this
                exact absurd this (by simp)

/-- Everything that is read is sent, and the connection stays. -/
def Call.Continues (c : Call) : Prop :=
  ∃ bytes ds, c.recv = .data bytes ∧ bytes ≠ [] ∧ bytes.length < sizeofBuf ∧ firstLine bytes ≠ shutdown ∧
    c.popen = some ds ∧ ∀ d ∈ ds, d.sendFails = false

/-- A message leaves room for its NUL and is the word to stop or a command that runs, of whose output only the last
    piece cannot be sent. -/
def Call.Orderly (c : Call) : Prop :=
  ∀ bytes, c.recv = .data bytes → bytes.length < sizeofBuf ∧
    (bytes = [] ∨ firstLine bytes = shutdown ∨
      ∃ ds, c.popen = some ds ∧ ∀ d ∈ ds.dropLast, d.sendFails = false)

/-- A piece that cannot be sent takes the event out. -/
theorem eventDel_mem_sendLoop {ds : List Piece} {d : Piece} (hd : d ∈ ds) (hfail : d.sendFails = true) :
    .eventDel ∈ sendLoop ds := by
  induction ds with
  | nil => simp at hd
  | cons e ds ih =>
      rw [sendLoop]
      rcases List.mem_cons.mp hd with rfl | hd
      · rw [if_pos hfail]
        simp [release]
      · exact List.mem_cons_of_mem _ (List.mem_append_right _ (ih hd))

theorem mem_sendLoop_of_sent {ds : List Piece} (h : ∀ d ∈ ds, d.sendFails = false) {a : Op} (ha : a ∈ sendLoop ds) :
    ∃ bytes, a = .send bytes := by
  induction ds with
  | nil => simp [sendLoop] at ha
  | cons d ds ih =>
      rw [sendLoop, if_neg (by simp [h d])] at ha
      rcases List.mem_cons.mp ha with rfl | ha
      · exact ⟨_, rfl⟩
      · exact ih (fun e he => h e (List.mem_cons_of_mem d he)) ha

/-- A call after which the connection stays. -/
theorem quiet_of_continues {c : Call} (h : c.Continues) {a : Op} (ha : a ∈ receiveCmd c) :
    Quiet a ∧ a ≠ .eventDel := by
  obtain ⟨bytes, ds, hrecv, hne, hlen, hfirst, hpopen, hsent⟩ := h
  rw [receiveCmd_eq, hrecv] at ha
  dsimp only at ha
  rw [if_neg hne, if_neg (Nat.not_le.mpr hlen), if_neg hfirst, hpopen, runCmd] at ha
  rcases List.mem_cons.mp ha with rfl | ha
  · simp [Quiet]
  rcases List.mem_append.mp ha with ha | ha
  · obtain ⟨bytes, rfl⟩ := mem_sendLoop_of_sent hsent ha
    simp [Quiet]
  · obtain rfl := List.mem_singleton.mp ha
    simp [Quiet]

/-- Every other call ends it. -/
theorem ends_of_not_continues {c : Call} (h : ¬ c.Continues) :
    .eventDel ∈ receiveCmd c ∨ .undefined ∈ receiveCmd c := by
  rw [receiveCmd_eq]
  cases hrecv : c.recv with
  | error => exact .inl (List.mem_cons_self ..)
  | data bytes =>
      dsimp only
      by_cases hne : bytes = []
      · rw [if_pos hne]
        exact .inl (by decide)
      rw [if_neg hne]
      by_cases hfull : sizeofBuf ≤ bytes.length
      · rw [if_pos hfull]
        exact .inr (by decide)
      rw [if_neg hfull]
      by_cases hfirst : firstLine bytes = shutdown
      · rw [if_pos hfirst]
        exact .inl (by decide)
      rw [if_neg hfirst]
      cases hpopen : c.popen with
      | none => exact .inl (by simp [runCmd, release])
      | some ds =>
          obtain ⟨d, hd, hfail⟩ : ∃ d ∈ ds, d.sendFails = true := by
            by_contra hall
            refine h ⟨bytes, ds, hrecv, hne, Nat.not_le.mp hfull, hfirst, hpopen, fun d hd => ?_⟩
            by_contra hd'
            exact hall ⟨d, hd, by simpa using hd'⟩
          have hmem := eventDel_mem_sendLoop hd hfail
          exact .inl (by simp [runCmd, hmem])

/-- **One call** gives everything back at most once, and uses nothing after it, exactly if it is orderly. -/
theorem safe_receiveCmd_iff (c : Call) : Safe (receiveCmd c) ↔ c.Orderly := by
  rw [receiveCmd_eq]
  unfold Call.Orderly
  cases hrecv : c.recv with
  | error => exact ⟨fun _ => nofun, fun _ => safe_release⟩
  | data bytes =>
      -- the condition is about this message
      have hinput : (∀ bytes', Input.data bytes = .data bytes' → bytes'.length < sizeofBuf ∧
          (bytes' = [] ∨ firstLine bytes' = shutdown ∨
            ∃ ds, c.popen = some ds ∧ ∀ d ∈ ds.dropLast, d.sendFails = false)) ↔
          bytes.length < sizeofBuf ∧ (bytes = [] ∨ firstLine bytes = shutdown ∨
            ∃ ds, c.popen = some ds ∧ ∀ d ∈ ds.dropLast, d.sendFails = false) :=
        ⟨fun h => h bytes rfl, fun h bytes' he => Input.data.inj he ▸ h⟩
      rw [hinput]
      dsimp only
      by_cases hne : bytes = []
      · rw [if_pos hne]
        exact ⟨fun _ => ⟨by rw [hne]; decide, .inl hne⟩, fun _ => safe_release⟩
      rw [if_neg hne]
      by_cases hfull : sizeofBuf ≤ bytes.length
      · rw [if_pos hfull]
        exact ⟨fun h => absurd (List.mem_singleton_self _) h.defined, fun h => absurd h.1 (Nat.not_lt.mpr hfull)⟩
      rw [if_neg hfull]
      by_cases hfirst : firstLine bytes = shutdown
      · rw [if_pos hfirst]
        exact ⟨fun _ => ⟨Nat.not_le.mp hfull, .inr (.inl hfirst)⟩, fun _ => by decide⟩
      rw [if_neg hfirst]
      cases hpopen : c.popen with
      | none =>
          -- everything is given back, and then `fgets` reads from the null pointer
          refine ⟨fun h => absurd (by simp [runCmd]) h.defined, ?_⟩
          rintro ⟨-, h | h | ⟨ds, hds, -⟩⟩
          · exact absurd h hne
          · exact absurd h hfirst
          · exact absurd hds nofun
      | some ds =>
          have hcmd : Safe (runCmd (firstLine bytes) (some ds)) ↔ Safe (sendLoop ds ++ [.pclose]) :=
            @safe_append_iff [.popen (firstLine bytes)] _ (by simp [Quiet])
          rw [hcmd, safe_sendLoop_iff]
          constructor
          · intro h
            exact ⟨Nat.not_le.mp hfull, .inr (.inr ⟨ds, rfl, h⟩)⟩
          · rintro ⟨-, h | h | ⟨ds', hds, h⟩⟩
            · exact absurd h hne
            · exact absurd h hfirst
            · rwa [Option.some.inj hds]

/-! ## Whole runs -/

/-- Every call is orderly that comes to the connection. -/
def Orderly : List Call → Prop
  | []      => True
  | c :: cs => c.Orderly ∧ (c.Continues → Orderly cs)

theorem safe_calls_iff (cs : List Call) : Safe (calls cs) ↔ Orderly cs := by
  induction cs with
  | nil => exact ⟨fun _ => trivial, fun _ => by decide⟩
  | cons c cs ih =>
      rw [calls, Orderly]
      by_cases hcont : c.Continues
      · have hstays : ¬ (.eventDel ∈ receiveCmd c ∨ .undefined ∈ receiveCmd c) := by
          rintro (hm | hm)
          · exact (quiet_of_continues hcont hm).2 rfl
          · exact (quiet_of_continues hcont hm).1.2.2 rfl
        have hquiet : ∀ a ∈ receiveCmd c, Quiet a := fun a ha => (quiet_of_continues hcont ha).1
        have hself : Safe (receiveCmd c) := by
          rw [← List.append_nil (receiveCmd c)]
          exact (safe_append_iff hquiet).mpr (by decide)
        rw [if_neg hstays, safe_append_iff hquiet, ih]
        exact ⟨fun h => ⟨(safe_receiveCmd_iff c).mp hself, fun _ => h⟩, fun h => h.2 hcont⟩
      · rw [if_pos (ends_of_not_continues hcont), safe_receiveCmd_iff]
        exact ⟨fun h => ⟨h, fun h' => absurd h' hcont⟩, fun h => h.1⟩

/-- **The command service** frees the event of a connection and closes its descriptor at most once, and uses
    neither after it, exactly as long as every call that comes to the connection is orderly: its message leaves room
    for a NUL, the command runs, and of its output only the last piece cannot be sent. -/
theorem service_safe_iff (a : Accept) (cs : List Call) :
    Safe (service a cs) ↔ (a = .registered → Orderly cs) := by
  cases a with
  | registered =>
      have hsplit : Safe (service .registered cs) ↔ Safe (calls cs) := by
        rw [service, if_pos rfl]
        exact safe_append_iff (by simp [acceptCmd, Quiet])
      rw [hsplit, safe_calls_iff]
      exact ⟨fun h _ => h, fun h => h rfl⟩
  | acceptFails => exact ⟨fun _ => nofun, fun _ => (by decide : Safe [])⟩
  | mallocFails => exact ⟨fun _ => nofun, fun _ => (by decide : Safe [.accept])⟩
  | eventAddFails => exact ⟨fun _ => nofun, fun _ => (by decide : Safe [.accept, .eventSet, .eventAdd, .freeEv])⟩

/-- The command `l`, whose output is two pieces; the client is gone when the first is sent. -/
def goneClient : Call where
  buf   := List.replicate 512 0
  recv  := .data [0x6C]
  popen := some [⟨[0x61, lf], true, by decide⟩, ⟨[0x62, lf], true, by decide⟩]
  size  := List.length_replicate

/-- **It is freed and closed twice.** -/
theorem service_goneClient :
    service .registered [goneClient]
      = [.accept, .eventSet, .eventAdd, .popen [0x6C], .send [0x61, lf], .eventDel, .freeEv, .close,
          .send [0x62, lf], .eventDel, .freeEv, .close, .pclose]
      ∧ ¬ Safe (service .registered [goneClient]) := by
  have hops : service .registered [goneClient]
      = [.accept, .eventSet, .eventAdd, .popen [0x6C], .send [0x61, lf], .eventDel, .freeEv, .close,
          .send [0x62, lf], .eventDel, .freeEv, .close, .pclose] := by
    decide +kernel
  rw [hops]
  exact ⟨rfl, by decide⟩

end CmdHandler
end Socket
end CSamples
