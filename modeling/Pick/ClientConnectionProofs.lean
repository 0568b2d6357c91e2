import Pick.FramerProofs

/-! # Connections of the web socket (`klippy/webhooks.py`)

Requests and responses are ended by a byte 3.  `process_received` gets the requests in
chunks, and `_do_send` may write less than it has: what is left waits in `send_buffer`,
and meanwhile the connection is blocking. -/

namespace ClientConnection

open List

/-! ## Model -/

/-- `ClientConnection`, with the requests scheduled and the bytes written; it is open while
    there is an `fd_handle`. -/
structure Client (ρ : Type*) where
  partialData : List UInt8 := []
  sendBuffer : List UInt8 := []
  isBlocking : Bool := false
  blockingCount : ℕ := 0
  isOpen : Bool := true
  scheduled : List ρ := []
  written : List UInt8 := []

variable {ρ : Type*} (parse : List UInt8 → Option ρ)

/-- `process_received`; `recv` may fail, and `WebRequest` may refuse a request. -/
def processReceived (c : Client ρ) : Option (List UInt8) → Client ρ
  | none => c
  | some [] => { c with isOpen := false }
  | some data =>
    let requests := Split.pieces 3 c.partialData data
    { c with
      partialData := requests.getLastD []
      scheduled := c.scheduled ++ requests.dropLast.filterMap parse }

/-- `_do_send`, when the socket takes so many bytes, none if it would block; `none` is
    another error. -/
def doSend (c : Client ρ) (taken : Option ℕ) : Client ρ :=
  if c.isOpen = false then c
  else
    match taken with
    | none => { c with isOpen := false }
    | some taken =>
      let sent := min taken c.sendBuffer.length
      let c :=
        if sent < c.sendBuffer.length then
          if c.isBlocking = false then { c with isBlocking := true, blockingCount := 5 }
          else c
        else if c.isBlocking = true then { c with isBlocking := false }
        else c
      { c with
        sendBuffer := c.sendBuffer.drop sent
        written := c.written ++ c.sendBuffer.take sent }

/-- `send`; `none` is data that has no JSON. -/
def send (c : Client ρ) (jmsg : Option (List UInt8)) (taken : Option ℕ) : Client ρ :=
  match jmsg with
  | none => c
  | some jmsg =>
    let c := { c with sendBuffer := c.sendBuffer ++ (jmsg ++ [3]) }
    if c.isBlocking = false then doSend c taken else c

/-- What happens to a connection; the reactor calls `_do_send` when the socket is writable. -/
inductive Op where
  | received (data : Option (List UInt8))
  | send (jmsg : Option (List UInt8)) (taken : Option ℕ)
  | writable (taken : Option ℕ)
  | close

/-- One operation. -/
def step (c : Client ρ) : Op → Client ρ
  | .received data => processReceived parse c data
  | .send jmsg taken => send c jmsg taken
  | .writable taken => doSend c taken
  | .close => { c with isOpen := false }

/-- A connection from its start on. -/
def run (ops : List Op) : Client ρ := ops.foldl (step parse) {}

/-- The bytes that are received. -/
def Op.data : Op → List UInt8
  | .received data => data.getD []
  | .send .. | .writable _ | .close => []

/-- The message that is sent, with its end. -/
def Op.message : Op → List UInt8
  | .send (some jmsg) _ => jmsg ++ [3]
  | .send none _ | .received _ | .writable _ | .close => []

/-! ## Whole runs -/

/-- The connection has received and sent these bytes. -/
structure Framed (received sent : List UInt8) (c : Client ρ) : Prop where
  split : ∃ requests, received.splitOn 3 = requests ++ [c.partialData] ∧
    c.scheduled = requests.filterMap parse
  bytes : c.written ++ c.sendBuffer = sent
  blocking : c.isOpen = true → (c.isBlocking = true ↔ c.sendBuffer ≠ [])

variable {parse} {c : Client ρ} {received sent : List UInt8}

/-- **A CHUNK** ends the request that was left, and leaves one. -/
theorem Framed.processReceived (h : Framed parse received sent c) (data : List UInt8) :
    Framed parse (received ++ data) sent (processReceived parse c (some data)) := by
  cases data with
  | nil =>
    rw [append_nil]
    exact { h with blocking := nofun }
  | cons b data =>
    obtain ⟨requests, hsplit, hscheduled⟩ := h.split
    obtain ⟨new, left, hpieces⟩ : ∃ new left,
        Split.pieces 3 c.partialData (b :: data) = new ++ [left] :=
      ⟨_, _, (dropLast_append_getLast Split.pieces_ne_nil).symm⟩
    refine { h with split := ⟨requests ++ new, ?_, ?_⟩ }
    · simp [ClientConnection.processReceived, Split.splitOn_append, hsplit, hpieces]
    · simp [ClientConnection.processReceived, hscheduled, hpieces]

/-- **A WRITE** takes bytes from the front of the buffer, and blocks if some are left. -/
theorem Framed.doSend (hsplit : ∃ requests, received.splitOn 3 = requests ++ [c.partialData] ∧
      c.scheduled = requests.filterMap parse)
    (hbytes : c.written ++ c.sendBuffer = sent) (taken : Option ℕ) :
    Framed parse received sent (doSend c taken) := by
  rw [ClientConnection.doSend.eq_def]
  split
  · rename_i hclosed
    exact ⟨hsplit, hbytes, fun hopen => nomatch hclosed.symm.trans hopen⟩
  cases taken with
  | none => exact ⟨hsplit, hbytes, nofun⟩
  | some taken =>
    have hall : ∀ n, c.written ++ c.sendBuffer.take n ++ c.sendBuffer.drop n = sent := by
      intro n
      rw [append_assoc, take_append_drop, hbytes]
    dsimp only
    split
    · rename_i hless
      have hleft : c.sendBuffer.drop (min taken c.sendBuffer.length) ≠ [] :=
        drop_eq_nil_iff.not.mpr (Nat.not_le_of_lt hless)
      split
      · exact ⟨hsplit, hall _, fun _ => iff_of_true rfl hleft⟩
      · rename_i hblocking
        exact ⟨hsplit, hall _, fun _ => iff_of_true ((Bool.not_eq_false _).mp hblocking) hleft⟩
    · rename_i hmore
      have hnone : c.sendBuffer.drop (min taken c.sendBuffer.length) = [] :=
        drop_eq_nil_of_le (Nat.le_of_not_lt hmore)
      split
      · exact ⟨hsplit, hall _, fun _ => iff_of_false nofun (not_not.mpr hnone)⟩
      · rename_i hblocking
        exact ⟨hsplit, hall _, fun _ => iff_of_false hblocking (not_not.mpr hnone)⟩

theorem Framed.step (h : Framed parse received sent c) (op : Op) :
    Framed parse (received ++ op.data) (sent ++ op.message) (step parse c op) := by
  match op with
  | .received none | .send none _ =>
    simp only [Op.data, Op.message, Option.getD_none, append_nil]
    exact h
  | .received (some data) =>
    simp only [Op.message, append_nil]
    exact h.processReceived data
  | .send (some jmsg) taken =>
    simp only [Op.data, append_nil]
    have hbytes : c.written ++ (c.sendBuffer ++ (jmsg ++ [3])) = sent ++ (jmsg ++ [3]) := by
      rw [← append_assoc, h.bytes]
    rw [ClientConnection.step, send]
    dsimp only
    split
    · refine Framed.doSend ?_ hbytes taken
      exact h.split
    · rename_i hblocking
      exact ⟨h.split, hbytes, fun _ => iff_of_true ((Bool.not_eq_false _).mp hblocking) (by simp)⟩
  | .writable taken =>
    simp only [Op.data, Op.message, append_nil]
    exact Framed.doSend h.split h.bytes taken
  | .close =>
    simp only [Op.data, Op.message, append_nil]
    exact { h with blocking := nofun }

theorem Framed.run (h : Framed parse received sent c) (ops : List Op) :
    Framed parse (received ++ ops.flatMap Op.data) (sent ++ ops.flatMap Op.message)
      (ops.foldl (ClientConnection.step parse) c) := by
  induction ops generalizing c received sent with
  | nil => simpa using h
  | cons op ops ih => simpa using ih (h.step op)

/-- **FRAMING IS LOSS FREE**: the requests are those of the stream, however it was cut, what is
    written and what waits are the messages sent, and an open connection is blocking exactly if
    something waits. -/
theorem framing_loss_free (parse : List UInt8 → Option ρ) (ops : List Op) :
    (run parse ops).scheduled =
        ((ops.flatMap Op.data).splitOn 3).dropLast.filterMap parse ∧
      (run parse ops).written ++ (run parse ops).sendBuffer = ops.flatMap Op.message ∧
      ((run parse ops).isOpen = true →
        ((run parse ops).isBlocking = true ↔ (run parse ops).sendBuffer ≠ [])) := by
  have hstart : Framed parse [] [] ({} : Client ρ) :=
    ⟨⟨[], rfl, rfl⟩, rfl, fun _ => iff_of_false nofun (not_not.mpr rfl)⟩
  have h : Framed parse (ops.flatMap Op.data) (ops.flatMap Op.message) (run parse ops) :=
    hstart.run ops
  obtain ⟨requests, hsplit, hscheduled⟩ := h.split
  refine ⟨?_, h.bytes, h.blocking⟩
  rw [hscheduled, hsplit, dropLast_concat]

end ClientConnection
