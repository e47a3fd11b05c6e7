import RingStore.Connection
import RingStore.Proofs.Wire.Framing

/-!
# One request, at most one reply

Whatever bytes arrive on a connection, they fall into one of three classes. They begin with a frame
that holds a request, and its response is sent back; they begin with a frame that holds none, and
the sender is told so; or they begin with no frame, and nothing is sent back. Only in the first
class is the handler called, and in no class does it matter what follows the first frame.
-/

namespace RingStore

open RingStore.Frame

/-- Bytes that do not begin with a frame fail as a stream does, not as an encoding does. -/
theorem Frame.unwrap_error {bs rest : Bytes} {f : Fault} (h : unwrap bs = (.error f, rest)) :
    ∃ e, f = .io e := by
  rcases Nat.lt_or_ge bs.length 4 with hshort | hlong
  · rw [unwrap_of_short hshort] at h
    exact ⟨.earlyEnd, (Except.error.inj (Prod.mk.inj h).1).symm⟩
  · have hhead : (bs.take 4).length = 4 := by simp [hlong]
    rw [← List.take_append_drop 4 bs, unwrap_of_length hhead] at h
    split at h
    · exact ⟨_, (Except.error.inj (Prod.mk.inj h).1).symm⟩
    · split at h
      · exact ⟨.earlyEnd, (Except.error.inj (Prod.mk.inj h).1).symm⟩
      · cases h

namespace Connection

/-- What arrived begins with a complete frame around `body`, and `rest` follows it. -/
structure Begins (received body rest : Bytes) : Prop where
  split : received = header body.length ++ body ++ rest
  fits : body.length ≤ limit

/-- What is sent is one frame, and it holds the response. -/
structure Carries (sent : Bytes) (r : Response) : Prop where
  written : Frame.write r = .ok sent
  readBack : Frame.read sent = (.ok r, [])

variable {m : Type → Type} [Monad m] {handle : Request → m Response}
variable {received received' body rest rest' : Bytes}

theorem carries_whole {r : Response} (h : Fits r) : Carries (whole r) r where
  written := write_of_fits h
  readBack := by
    have hread := read_whole readBack_response h []
    rwa [List.append_nil] at hread

theorem fits_invalidRequest : Fits (Response.ofFault .invalidRequest) := by
  unfold Fits
  decide

/-- Bytes that begin with a frame give its body, and what follows is left. -/
theorem Begins.unwrap (h : Begins received body rest) :
    Frame.unwrap received = (.ok body, rest) := by
  rw [h.split, unwrap_frame h.fits]

/-- What is sent back for a response: its frame, or nothing if it has none. -/
def send (r : Response) : Bytes := (Frame.write r).toOption.getD []

theorem send_of_fits {r : Response} (h : Fits r) : send r = whole r := by
  rw [send, write_of_fits h]
  rfl

/-- A request that is read is handled once, and the answer is sent. -/
theorem serve_of_request {q : Request} (h : Begins received body rest)
    (hq : Wire.ofBytes body = .ok q) :
    serve handle received = do return send (← handle q) := by
  have hread : (Frame.read received : Except Fault Request × Bytes) = (.ok q, rest) := by
    simp only [Frame.read, h.unwrap, hq]
    rfl
  simp only [serve, hread, send]

/-- What is framed but is no request is answered as an invalid one, and not handled. -/
theorem serve_of_garbage {f : CodecFault} (h : Begins received body rest)
    (hbody : (Wire.ofBytes body : Except CodecFault Request) = .error f) :
    serve handle received = pure (whole (Response.ofFault .invalidRequest)) := by
  have hread :
      (Frame.read received : Except Fault Request × Bytes) = (.error (.codec f), rest) := by
    simp only [Frame.read, h.unwrap, hbody]
    rfl
  simp only [serve, hread, ← send_of_fits fits_invalidRequest, send]

/-- Where no frame is complete nothing is handled and nothing is sent. -/
theorem serve_of_no_frame (h : ∀ body rest, ¬ Begins received body rest) :
    serve handle received = pure [] := by
  rcases hunwrap : Frame.unwrap received with ⟨outcome, rest⟩
  cases outcome with
  | ok body =>
    obtain ⟨hsplit, hfits⟩ := unwrap_eq_ok hunwrap
    exact absurd ⟨hsplit, hfits⟩ (h body rest)
  | error f =>
    obtain ⟨e, rfl⟩ := unwrap_error hunwrap
    simp only [serve, Frame.read, hunwrap]

/-- What a connection does with any bytes that arrive on it before the other side closes its end. -/
structure OneReply (handle : Request → m Response) (send : Response → Bytes) : Prop where
  /-- A response that fits is sent as one frame that holds it. -/
  carries : ∀ r, (Wire.encode r).length ≤ limit → Carries (send r) r
  /-- A request is handled once, and the response to it is all that is sent. -/
  request : ∀ received body rest q, Begins received body rest → Wire.ofBytes body = .ok q →
    serve handle received = do return send (← handle q)
  /-- A frame that holds no request is answered without the handler. -/
  garbage : ∀ received body rest f, Begins received body rest →
    (Wire.ofBytes body : Except CodecFault Request) = .error f →
    ∃ sent, Carries sent (.ofFault .invalidRequest) ∧ serve handle received = pure sent
  /-- Without a complete frame nothing happens. -/
  silent : ∀ received, (∀ body rest, ¬ Begins received body rest) → serve handle received = pure []
  /-- What follows the first frame has no effect. -/
  trailing : ∀ received received' body rest rest', Begins received body rest →
    Begins received' body rest' → serve handle received' = serve handle received

/-- Every connection carries one request and at most one reply, whatever arrives on it and whatever
the handler is. The handler runs in any monad, so that where it is not called no state behind it
changes: in particular not that of a replica, nor that of its disk. -/
theorem exists_oneReply : ∃ send : Response → Bytes,
    ∀ (m : Type → Type) [Monad m] (handle : Request → m Response), OneReply handle send := by
  refine ⟨send, fun m _ handle => ⟨fun r h => ?_, fun _ _ _ _ => serve_of_request, ?_,
    fun _ => serve_of_no_frame, ?_⟩⟩
  · rw [send_of_fits h]
    exact carries_whole h
  · intro received body rest f h hbody
    exact ⟨_, carries_whole fits_invalidRequest, serve_of_garbage h hbody⟩
  · intro received received' body rest rest' h h'
    cases hbody : (Wire.ofBytes body : Except CodecFault Request) with
    | ok q => rw [serve_of_request h hbody, serve_of_request h' hbody]
    | error f => rw [serve_of_garbage h hbody, serve_of_garbage h' hbody]

-- A handler that notes its calls: the bytes of a second frame reach neither the notes nor the
-- reply.
example : (serve (m := StateM (List Request)) (fun q => do modify (· ++ [q]); return .success)
      (whole Request.info ++ whole Request.commit)).run [] =
    (whole Response.success, [Request.info]) := by rfl

end Connection

end RingStore
