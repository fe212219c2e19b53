import TizenClaw.ClientRequest

/-! The protocol of the tool executor: a length in four bytes, then the payload. The three receivers
each have their own loop over the reads of the socket. -/
namespace ToolProtocol

open ByteString IpcHandler ClientRequest

section Transport

/-- How many bytes each call moves at most. A call fails with 0, and behind the end of the list. -/
abbrev Schedule := List ℕ

/-- The loop around `write`: what reaches the stream, and whether that is all. -/
def writeLoop : Schedule → Bytes → Bytes × Bool × Schedule
  | calls, [] => ([], true, calls)
  | [], _ :: _ => ([], false, [])
  | 0 :: calls, _ :: _ => ([], false, calls)
  | (k + 1) :: calls, b :: s =>
    let r := writeLoop calls ((b :: s).drop (k + 1))
    ((b :: s).take (k + 1) ++ r.1, r.2)

/-- `SendResponse`, and the sending half of a request: the length goes out in a single call. -/
def sendFrame : Schedule → Bytes → Bytes × Bool × Schedule
  | [], _ => ([], false, [])
  | k :: calls, payload =>
    if 4 ≤ k then
      let r := writeLoop calls payload
      (lengthBytes payload.length ++ r.1, r.2)
    else ((lengthBytes payload.length).take k, false, calls)

/-- All that a sender puts on the stream. The first failure is its last call. -/
def sendAll : Schedule → List Bytes → Bytes
  | _, [] => []
  | calls, payload :: payloads =>
    let r := sendFrame calls payload
    r.1 ++ if r.2.1 then sendAll r.2.2 payloads else []

/-- `struct.pack` of the code sandbox takes no length beyond 32 bits, and raises instead. -/
def sandboxSend (calls : Schedule) (payload : Bytes) : Bytes :=
  if payload.length < 2 ^ 32 then (writeLoop calls (frame payload)).1 else []

/-- One `recv` of at most `n` bytes: what it takes, and what it leaves. -/
def recv (k n : ℕ) (stream : Bytes) : Bytes × Bytes := stream.splitAt (min k n)

def recvExact : Schedule → ℕ → Bytes → Option (Bytes × Bytes × Schedule)
  | calls, 0, stream => some ([], stream, calls)
  | [], _ + 1, _ => none
  | k :: calls, n + 1, stream =>
    let r := recv k (n + 1) stream
    if r.1 = [] then none
    else (recvExact calls (n + 1 - r.1.length) r.2).map fun x => (r.1 ++ x.1, x.2)

end Transport

section Receivers

/-- Four bytes off the stream, as a length. -/
def readLength : Bytes → ℕ
  | [a, b, c, d] => netLen a b c d
  | _ => 0

/-- A frame as `HandleClient` and `ForwardRequest` take it off the stream. -/
def recvFrame (calls : Schedule) (stream : Bytes) : Option (Bytes × Bytes × Schedule) :=
  match recvExact calls 4 stream with
  | none => none
  | some (header, rest, calls) =>
    if kMaxPayload < readLength header then none
    else recvExact calls (readLength header) rest

/-- The payloads that `HandleClient` takes off a connection. After the answer to each of them it
goes on or not. -/
def receiveLoop (goOn : ℕ → Bool) : ℕ → ℕ → Schedule → Bytes → List Bytes
  | 0, _, _, _ => []
  | n + 1, i, calls, stream =>
    match recvFrame calls stream with
    | none => []
    | some (payload, rest, calls) =>
      payload :: if goOn i then receiveLoop goOn n (i + 1) calls rest else []

def handleClient (goOn : ℕ → Bool) (calls : Schedule) (stream : Bytes) : List Bytes :=
  receiveLoop goOn (stream.length + 1) 0 calls stream

def forwardRequest (calls : Schedule) (stream : Bytes) : Option Bytes :=
  (recvFrame calls stream).map (·.1)

/-- The engine makes one call for the length and one for the payload. -/
def executeToolExecutorCommand (calls : Schedule) (stream : Bytes) : Option Bytes :=
  match calls with
  | k :: l :: _ =>
    let header := recv k 4 stream
    if header.1.length = 4 then
      if kMaxPayload < readLength header.1 then none
      else
        let body := recv l (readLength header.1) header.2
        if body.1.length = readLength header.1 then some body.1 else none
    else none
  | _ => none

end Receivers

section Stream

/-- The next frame that is whole on a stream, whatever the reads. -/
def nextFrame : Bytes → Option (Bytes × Bytes)
  | a :: b :: c :: d :: rest =>
    if kMaxPayload < netLen a b c d then none
    else if rest.length < netLen a b c d then none
    else some (rest.splitAt (netLen a b c d))
  | _ => none

theorem recv_append (k n : ℕ) (stream : Bytes) :
    (recv k n stream).1 ++ (recv k n stream).2 = stream := by
  rw [recv, List.splitAt_eq]
  exact List.take_append_drop _ _

theorem recvExact_sound {calls calls' : Schedule} {n : ℕ} {stream got rest : Bytes}
    (h : recvExact calls n stream = some (got, rest, calls')) :
    stream = got ++ rest ∧ got.length = n := by
  induction calls generalizing n stream got with
  | nil =>
    cases n with
    | zero =>
      cases h
      exact ⟨rfl, rfl⟩
    | succ n => cases h
  | cons k calls ih =>
    cases n with
    | zero =>
      cases h
      exact ⟨rfl, rfl⟩
    | succ n =>
      rw [recvExact] at h
      split_ifs at h with hr
      obtain ⟨⟨body, rest', calls''⟩, hx, hy⟩ := Option.map_eq_some_iff.mp h
      cases hy
      obtain ⟨hstream, hlength⟩ := ih hx
      have hle : (recv k (n + 1) stream).1.length ≤ n + 1 := by
        rw [recv, List.splitAt_eq, List.length_take]
        omega
      refine ⟨?_, ?_⟩
      · rw [List.append_assoc, ← hstream, recv_append]
      · rw [List.length_append, hlength]
        omega

theorem nextFrame_of_length {header body : Bytes} (hheader : header.length = 4)
    (hmax : ¬ kMaxPayload < readLength header) (hbody : body.length = readLength header)
    (rest : Bytes) : nextFrame (header ++ (body ++ rest)) = some (body, rest) := by
  match header, hheader with
  | [a, b, c, d], _ =>
    change body.length = netLen a b c d at hbody
    change ¬ kMaxPayload < netLen a b c d at hmax
    change (if kMaxPayload < netLen a b c d then none
      else if (body ++ rest).length < netLen a b c d then none
      else some ((body ++ rest).splitAt (netLen a b c d))) = _
    have hle : ¬ (body ++ rest).length < netLen a b c d := by
      rw [List.length_append]
      omega
    rw [if_neg hmax, if_neg hle, ← hbody, List.splitAt_eq, List.take_left, List.drop_left]

/-- Partial reads or not, a receiver gets the next frame of the stream or an error. -/
theorem recvFrame_sound {calls calls' : Schedule} {stream payload rest : Bytes}
    (h : recvFrame calls stream = some (payload, rest, calls')) :
    nextFrame stream = some (payload, rest) := by
  unfold recvFrame at h
  split at h
  · cases h
  · next header tail calls'' hheader =>
    split_ifs at h with hmax
    obtain ⟨rfl, hfour⟩ := recvExact_sound hheader
    obtain ⟨rfl, hlength⟩ := recvExact_sound h
    exact nextFrame_of_length hfour hmax hlength rest

theorem executeToolExecutorCommand_sound {calls : Schedule} {stream payload : Bytes}
    (h : executeToolExecutorCommand calls stream = some payload) :
    ∃ rest, nextFrame stream = some (payload, rest) := by
  unfold executeToolExecutorCommand at h
  split at h
  · next k l calls' =>
    dsimp only at h
    split_ifs at h with hfour hmax hlength
    cases h
    have hframe := nextFrame_of_length hfour hmax hlength
      (recv l (readLength (recv k 4 stream).1) (recv k 4 stream).2).2
    rw [recv_append, recv_append] at hframe
    exact ⟨_, hframe⟩
  · cases h

/-- What comes behind a stream does not change its frames. -/
theorem nextFrame_append {stream payload rest : Bytes} (h : nextFrame stream = some (payload, rest))
    (more : Bytes) : nextFrame (stream ++ more) = some (payload, rest ++ more) := by
  match stream with
  | a :: b :: c :: d :: s =>
    change (if kMaxPayload < netLen a b c d then none
      else if s.length < netLen a b c d then none
      else some (s.splitAt (netLen a b c d))) = _ at h
    split_ifs at h with hmax hle
    rw [List.splitAt_eq] at h
    obtain ⟨rfl, rfl⟩ := Prod.mk.inj (Option.some.inj h)
    have hle' : ¬ (s ++ more).length < netLen a b c d := by
      rw [List.length_append]
      omega
    change (if kMaxPayload < netLen a b c d then none
      else if (s ++ more).length < netLen a b c d then none
      else some ((s ++ more).splitAt (netLen a b c d))) = _
    rw [if_neg hmax, if_neg hle', List.splitAt_eq, List.take_append_of_le_length (by omega),
      List.drop_append_of_le_length (by omega)]
  | [] => cases h
  | [_] => cases h
  | [_, _] => cases h
  | [_, _, _] => cases h

end Stream

section Senders

/-- The length before a payload says no less than the payload, or more than is accepted. -/
def Sized (payload : Bytes) : Prop :=
  payload.length < 2 ^ 32 ∨ kMaxPayload < payload.length % 2 ^ 32

theorem nextFrame_lengthBytes (n : ℕ) (s : Bytes) :
    nextFrame (lengthBytes n ++ s) =
      if kMaxPayload < n % 2 ^ 32 then none
      else if s.length < n % 2 ^ 32 then none
      else some (s.splitAt (n % 2 ^ 32)) := by
  rw [← netLen_lengthBytes n]
  rfl

theorem nextFrame_frame {payload p rest : Bytes} (hsized : Sized payload) {more : Bytes}
    (h : nextFrame (frame payload ++ more) = some (p, rest)) : p = payload ∧ rest = more := by
  rw [frame, List.append_assoc, nextFrame_lengthBytes] at h
  split_ifs at h with hmax
  rw [Nat.mod_eq_of_lt (hsized.resolve_right hmax), List.splitAt_eq, List.take_left,
    List.drop_left] at h
  obtain ⟨rfl, rfl⟩ := Prod.mk.inj (Option.some.inj h)
  exact ⟨rfl, rfl⟩

theorem writeLoop_isPrefix (calls : Schedule) (s : Bytes) :
    (writeLoop calls s).1 <+: s ∧ ((writeLoop calls s).2.1 = true → (writeLoop calls s).1 = s) := by
  induction calls generalizing s with
  | nil =>
    cases s with
    | nil => exact ⟨List.prefix_refl _, fun _ => rfl⟩
    | cons b s => exact ⟨List.nil_prefix, nofun⟩
  | cons k calls ih =>
    cases s with
    | nil => exact ⟨List.prefix_refl _, fun _ => rfl⟩
    | cons b s =>
      cases k with
      | zero => exact ⟨List.nil_prefix, nofun⟩
      | succ k =>
        obtain ⟨hpre, hall⟩ := ih ((b :: s).drop (k + 1))
        have hcut := List.take_append_drop (k + 1) (b :: s)
        refine ⟨?_, fun h => ?_⟩
        · have happ := (List.prefix_append_right_inj ((b :: s).take (k + 1))).mpr hpre
          rwa [hcut] at happ
        · rw [writeLoop, hall h]
          exact hcut

theorem sendFrame_isPrefix (calls : Schedule) (payload : Bytes) :
    (sendFrame calls payload).1 <+: frame payload ∧
      ((sendFrame calls payload).2.1 = true → (sendFrame calls payload).1 = frame payload) := by
  cases calls with
  | nil => exact ⟨List.nil_prefix, nofun⟩
  | cons k calls =>
    rw [sendFrame]
    split_ifs with hk
    · obtain ⟨hpre, hall⟩ := writeLoop_isPrefix calls payload
      refine ⟨(List.prefix_append_right_inj _).mpr hpre, fun h => ?_⟩
      exact congrArg (lengthBytes payload.length ++ ·) (hall h)
    · exact ⟨(List.take_prefix k _).trans (List.prefix_append _ _), nofun⟩

theorem sendAll_isPrefix (calls : Schedule) (payloads : List Bytes) :
    sendAll calls payloads <+: payloads.flatMap frame := by
  induction payloads generalizing calls with
  | nil => exact List.prefix_refl _
  | cons payload payloads ih =>
    obtain ⟨hpre, hall⟩ := sendFrame_isPrefix calls payload
    rw [sendAll, List.flatMap_cons]
    split_ifs with h
    · rw [hall h]
      exact (List.prefix_append_right_inj _).mpr (ih _)
    · rw [List.append_nil]
      exact hpre.trans (List.prefix_append _ _)

theorem sandboxSend_isPrefix (calls : Schedule) (payload : Bytes) :
    sandboxSend calls payload <+: frame payload ∧
      (sandboxSend calls payload ≠ [] → payload.length < 2 ^ 32) := by
  rw [sandboxSend]
  split_ifs with h
  · exact ⟨(writeLoop_isPrefix calls _).1, fun _ => h⟩
  · exact ⟨List.nil_prefix, fun hne => absurd rfl hne⟩

end Senders

section Exactness

/-- What a client sends that keeps its connection: the executor takes frames off it, one by one. -/
def serverGets (goOn : ℕ → Bool) (writes reads : Schedule) (payloads : List Bytes) : List Bytes :=
  handleClient goOn reads (sendAll writes payloads)

/-- The response on a connection of the engine, which makes one for each request. -/
def clientGets (writes reads : Schedule) (payload : Bytes) : Option Bytes :=
  executeToolExecutorCommand reads (sendFrame writes payload).1

/-- The response on a connection of the proxy, which makes one for each request. -/
def proxyGets (writes reads : Schedule) (payload : Bytes) : Option Bytes :=
  forwardRequest reads (sandboxSend writes payload)

/-- However the calls cut the bytes, each receiver gets the payloads that were sent, as they were
sent, up to an error. -/
structure Exact (payloads : List Bytes) : Prop where
  server : ∀ goOn writes reads, serverGets goOn writes reads payloads <+: payloads
  client : ∀ payload ∈ payloads, ∀ writes reads p,
    clientGets writes reads payload = some p → p = payload
  proxy : ∀ payload ∈ payloads, ∀ writes reads p,
    proxyGets writes reads payload = some p → p = payload

theorem receiveLoop_isPrefix (goOn : ℕ → Bool) {payloads : List Bytes} (h : ∀ p ∈ payloads, Sized p)
    (n i : ℕ) (calls : Schedule) {stream : Bytes} (hpre : stream <+: payloads.flatMap frame) :
    receiveLoop goOn n i calls stream <+: payloads := by
  induction payloads generalizing n i calls stream with
  | nil =>
    obtain rfl := List.prefix_nil.mp hpre
    cases n with
    | zero => exact List.prefix_refl _
    | succ n =>
      rw [receiveLoop]
      split
      · exact List.prefix_refl _
      · next payload rest calls' hframe => cases recvFrame_sound hframe
  | cons payload payloads ih =>
    cases n with
    | zero => exact List.nil_prefix
    | succ n =>
      rw [receiveLoop]
      split
      · exact List.nil_prefix
      · next p rest calls' hframe =>
        obtain ⟨more, hmore⟩ := hpre
        have hnext := nextFrame_append (recvFrame_sound hframe) more
        rw [hmore, List.flatMap_cons] at hnext
        obtain ⟨rfl, hrest⟩ := nextFrame_frame (h payload List.mem_cons_self) hnext
        apply List.cons_prefix_cons.mpr
        refine ⟨rfl, ?_⟩
        split_ifs
        · exact ih (fun q hq => h q (List.mem_cons_of_mem _ hq)) n (i + 1) calls' ⟨more, hrest⟩
        · exact List.nil_prefix

theorem eq_of_nextFrame {payload p rest stream : Bytes} (hsized : Sized payload)
    (hpre : stream <+: frame payload) (h : nextFrame stream = some (p, rest)) : p = payload := by
  obtain ⟨more, hmore⟩ := hpre
  have hnext := nextFrame_append h more
  rw [hmore, ← List.append_nil (frame payload)] at hnext
  exact (nextFrame_frame hsized hnext).1

theorem clientGets_eq {payload p : Bytes} (hsized : Sized payload) {writes reads : Schedule}
    (h : clientGets writes reads payload = some p) : p = payload := by
  obtain ⟨rest, hframe⟩ := executeToolExecutorCommand_sound h
  exact eq_of_nextFrame hsized (sendFrame_isPrefix writes payload).1 hframe

/-- The sandbox refuses what the two other senders cut. -/
theorem proxyGets_eq {payload p : Bytes} {writes reads : Schedule}
    (h : proxyGets writes reads payload = some p) : p = payload := by
  obtain ⟨⟨p', rest, calls⟩, hframe, rfl⟩ := Option.map_eq_some_iff.mp h
  have hnext := recvFrame_sound hframe
  obtain ⟨hpre, hlt⟩ := sandboxSend_isPrefix writes payload
  have hne : sandboxSend writes payload ≠ [] := by
    intro hnil
    rw [hnil] at hnext
    cases hnext
  exact eq_of_nextFrame (.inl (hlt hne)) hpre hnext

theorem exact_of_sized {payloads : List Bytes} (h : ∀ p ∈ payloads, Sized p) : Exact payloads where
  server goOn writes reads :=
    receiveLoop_isPrefix goOn h _ 0 reads (sendAll_isPrefix writes payloads)
  client payload hp _ _ _ hgets := clientGets_eq (h payload hp) hgets
  proxy _ _ _ _ _ hgets := proxyGets_eq hgets

/-- Calls that move everything: the client gets as many bytes as 32 bits of the length say. -/
theorem clientGets_whole {payload : Bytes} (h : ¬ Sized payload) :
    clientGets [4, payload.length] [4, payload.length % 2 ^ 32] payload =
      some (payload.take (payload.length % 2 ^ 32)) := by
  obtain ⟨hlong, hmax⟩ := not_or.mp h
  have hsent : (sendFrame [4, payload.length] payload).1 = frame payload := by
    cases payload with
    | nil => rfl
    | cons b s =>
      have hloop : (writeLoop [s.length + 1] (b :: s)).1 = b :: s := by
        have hdrop : (b :: s).drop (s.length + 1) = [] := List.drop_length (l := b :: s)
        have htake : (b :: s).take (s.length + 1) = b :: s := List.take_length (l := b :: s)
        rw [writeLoop, hdrop, htake]
        exact List.append_nil _
      exact congrArg (lengthBytes (s.length + 1) ++ ·) hloop
  have hheader : recv 4 4 (frame payload) = (lengthBytes payload.length, payload) := by
    rw [recv, List.splitAt_eq]
    rfl
  have hfour : (lengthBytes payload.length).length = 4 := rfl
  have hread : readLength (lengthBytes payload.length) = payload.length % 2 ^ 32 :=
    netLen_lengthBytes payload.length
  have htake : (payload.take (payload.length % 2 ^ 32)).length = payload.length % 2 ^ 32 :=
    List.length_take_of_le (Nat.mod_le _ _)
  rw [clientGets, hsent, executeToolExecutorCommand]
  rw [hheader, if_pos hfour, hread, if_neg hmax, recv, min_self, List.splitAt_eq, if_pos htake]

theorem sized_of_exact {payloads : List Bytes} (h : Exact payloads) : ∀ p ∈ payloads, Sized p := by
  intro p hp
  by_contra hsized
  have hcut := h.client p hp _ _ _ (clientGets_whole hsized)
  have hlen := congrArg List.length hcut
  rw [List.length_take_of_le (Nat.mod_le _ _)] at hlen
  obtain ⟨hlong, -⟩ := not_or.mp hsized
  have hlt := Nat.mod_lt p.length (show 0 < 2 ^ 32 by decide)
  omega

theorem framing_exact_iff (payloads : List Bytes) : Exact payloads ↔ ∀ p ∈ payloads, Sized p :=
  ⟨sized_of_exact, exact_of_sized⟩

end Exactness

section Delivery

/-- Reads that do not fail take all of the bytes, however few at a time. -/
theorem recvExact_all {calls : Schedule} (hpos : ∀ k ∈ calls, 0 < k) {n : ℕ} {stream : Bytes}
    (hcalls : n ≤ calls.length) (hstream : n ≤ stream.length) :
    ∃ calls', recvExact calls n stream = some (stream.take n, stream.drop n, calls') ∧
      (∀ k ∈ calls', 0 < k) ∧ calls.length ≤ calls'.length + n := by
  induction calls generalizing n stream with
  | nil =>
    obtain rfl : n = 0 := Nat.le_zero.mp hcalls
    exact ⟨[], rfl, hpos, le_refl _⟩
  | cons k calls ih =>
    cases n with
    | zero => exact ⟨k :: calls, rfl, hpos, le_refl _⟩
    | succ n =>
      have hk := hpos k List.mem_cons_self
      rw [List.length_cons] at hcalls
      have hgot : (recv k (n + 1) stream).1.length = min k (n + 1) := by
        rw [recv, List.splitAt_eq]
        exact List.length_take_of_le (by omega)
      have hne : (recv k (n + 1) stream).1 ≠ [] := by
        apply List.ne_nil_of_length_pos
        omega
      have hrest : n + 1 - min k (n + 1) ≤ (stream.drop (min k (n + 1))).length := by
        rw [List.length_drop]
        omega
      obtain ⟨calls', hall, hpos', hlen⟩ :=
        ih (fun l hl => hpos l (List.mem_cons_of_mem _ hl)) (by omega) hrest
      refine ⟨calls', ?_, hpos', ?_⟩
      · rw [recvExact]
        rw [if_neg hne, hgot, recv, List.splitAt_eq, hall, Option.map_some, List.drop_drop,
          ← List.take_add]
        have hsum : min k (n + 1) + (n + 1 - min k (n + 1)) = n + 1 := by omega
        rw [hsum]
      · rw [List.length_cons]
        omega

theorem recvFrame_all {calls : Schedule} (hpos : ∀ k ∈ calls, 0 < k) {payload : Bytes}
    (hmax : payload.length ≤ kMaxPayload) {more : Bytes}
    (hcalls : (frame payload ++ more).length ≤ calls.length) :
    ∃ calls', recvFrame calls (frame payload ++ more) = some (payload, more, calls') ∧
      (∀ k ∈ calls', 0 < k) ∧ more.length ≤ calls'.length := by
  have hlen : readLength (lengthBytes payload.length) = payload.length := by
    have hlt : payload.length < 2 ^ 32 := lt_of_le_of_lt hmax (by decide)
    exact (netLen_lengthBytes payload.length).trans (Nat.mod_eq_of_lt hlt)
  have hfour : (lengthBytes payload.length).length = 4 := rfl
  rw [frame, List.append_assoc] at hcalls ⊢
  simp only [List.length_append] at hcalls
  obtain ⟨calls', hheader, hpos', hle⟩ := recvExact_all hpos
    (show 4 ≤ calls.length by omega)
    (show 4 ≤ (lengthBytes payload.length ++ (payload ++ more)).length by
      rw [List.length_append]
      omega)
  obtain ⟨calls'', hbody, hpos'', hle'⟩ := recvExact_all hpos'
    (show payload.length ≤ calls'.length by omega)
    (show payload.length ≤ (payload ++ more).length by
      rw [List.length_append]
      omega)
  rw [List.take_left, List.drop_left] at hbody
  rw [List.take_left' hfour, List.drop_left' hfour] at hheader
  refine ⟨calls'', ?_, hpos'', by omega⟩
  rw [recvFrame, hheader]
  dsimp only
  rw [hlen, if_neg (Nat.not_lt.mpr hmax), hbody]

theorem receiveLoop_all {payloads : List Bytes} (hmax : ∀ p ∈ payloads, p.length ≤ kMaxPayload)
    {calls : Schedule} (hpos : ∀ k ∈ calls, 0 < k)
    (hcalls : (payloads.flatMap frame).length ≤ calls.length) (n i : ℕ)
    (hn : payloads.length < n) :
    receiveLoop (fun _ => true) n i calls (payloads.flatMap frame) = payloads := by
  induction payloads generalizing calls n i with
  | nil =>
    obtain ⟨n, rfl⟩ := Nat.exists_eq_succ_of_ne_zero (Nat.ne_zero_of_lt hn)
    rw [receiveLoop]
    split
    · rfl
    · next p rest calls' hframe => cases recvFrame_sound hframe
  | cons payload payloads ih =>
    obtain ⟨n, rfl⟩ := Nat.exists_eq_succ_of_ne_zero (Nat.ne_zero_of_lt hn)
    rw [List.flatMap_cons] at hcalls ⊢
    obtain ⟨calls', hframe, hpos', hle⟩ :=
      recvFrame_all hpos (hmax payload List.mem_cons_self) hcalls
    have hrest := ih (fun p hp => hmax p (List.mem_cons_of_mem _ hp)) hpos' hle n (i + 1)
      (Nat.lt_of_succ_lt_succ hn)
    rw [receiveLoop, hframe]
    exact congrArg (payload :: ·) hrest

theorem payloads_length_le (payloads : List Bytes) :
    payloads.length ≤ (payloads.flatMap frame).length := by
  induction payloads with
  | nil => exact le_refl 0
  | cons payload payloads ih =>
    have hfour : (lengthBytes payload.length).length = 4 := rfl
    rw [List.flatMap_cons, List.length_append, frame, List.length_append, List.length_cons]
    omega

/-- A client that stays within the limit is understood whatever the reads are, if none fails. -/
theorem handleClient_all {payloads : List Bytes} (hmax : ∀ p ∈ payloads, p.length ≤ kMaxPayload)
    {calls : Schedule} (hpos : ∀ k ∈ calls, 0 < k)
    (hcalls : (payloads.flatMap frame).length ≤ calls.length) :
    handleClient (fun _ => true) calls (payloads.flatMap frame) = payloads := by
  have hframes := payloads_length_le payloads
  exact receiveLoop_all hmax hpos hcalls _ 0 (Nat.lt_succ_of_le hframes)

end Delivery

namespace Counterexample

/-- One byte more than 32 bits can count. -/
def long : Bytes := List.replicate (2 ^ 32 + 1) 0x61

theorem not_sized : ¬ Sized long := by
  have hlen : long.length = 2 ^ 32 + 1 := List.length_replicate
  rw [Sized, hlen]
  decide

/-- The engine gets the first byte of such a response as if it were the whole of it. -/
theorem length_cut : ¬ Exact [long] := by
  intro h
  exact not_sized (sized_of_exact h long List.mem_cons_self)

end Counterexample

end ToolProtocol
