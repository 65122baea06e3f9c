import ByteExact.Decoder
/-!
# Cursors

A decoder is asked for one thing after another, and a request that it cannot serve does not stop it.
Whatever has been asked before, its unread bytes are the end of the buffer that it began with: a
request that is served takes the next bytes off their front, and one that is not leaves everything
as it was.

Results:
* `serve_of_le`, `serve_of_lt`: both outcomes of a request, told apart by what is left.
* `spent_append`, `consumed_append`: what one request takes, and what requests in a row take, stands
  before what they leave.
* `serve_after`: a request behind any others.
-/
namespace ByteExact.Decoder

/-- The decoder behind the next `count` bytes. -/
def advance (d : Decoder) (count : Nat) : Decoder := { d with unread := d.unread.drop count }

theorem remaining_advance (d : Decoder) (count : Nat) :
    (d.advance count).remaining = d.remaining - count :=
  List.length_drop

theorem advance_zero (d : Decoder) : d.advance 0 = d := rfl

theorem advance_advance (d : Decoder) (m n : Nat) :
    (d.advance m).advance n = d.advance (m + n) := by
  rw [advance, advance, advance, List.drop_drop]

theorem word_of_le {d : Decoder} {w : Nat} (h : w ≤ d.remaining) :
    d.word w = .done (d.order.word w (d.unread.take w)) (d.advance w) := by
  rw [word, take_of_le h]
  rfl

theorem word_of_lt {d : Decoder} {w : Nat} (h : d.remaining < w) :
    d.word w = .fail (.shortRead w d.remaining) d := by
  rw [word, take_of_lt h]
  rfl

theorem skip_of_le {d : Decoder} {count : Nat} (h : count ≤ d.remaining) :
    d.skip count = .done () (d.advance count) := by
  rw [skip, take_of_le h]
  rfl

theorem skip_of_lt {d : Decoder} {count : Nat} (h : d.remaining < count) :
    d.skip count = .fail (.shortRead count d.remaining) d := by
  rw [skip, take_of_lt h]
  rfl

theorem copyOver_of_le {d : Decoder} {destination : List UInt8}
    (h : destination.length ≤ d.remaining) :
    d.copyOver destination =
      .done () (d.unread.take destination.length, d.advance destination.length) := by
  rw [copyOver, take_of_le h]
  rfl

theorem copyOver_of_lt {d : Decoder} {destination : List UInt8}
    (h : d.remaining < destination.length) :
    d.copyOver destination =
      .fail (.shortRead destination.length d.remaining) (destination, d) := by
  rw [copyOver, take_of_lt h]
  rfl

/-! ## One request -/

/-- The reply to a request that is served with the bytes `bs`. -/
def Request.reply (order : ByteOrder) (bs : List UInt8) : Request → Reply
  | word w => .word w (order.word w bs)
  | take _ => .bytes bs
  | skip _ => .nothing
  | copyOver _ => .nothing

/-- The destination of a request that is served with the bytes `bs`. -/
def Request.filled (bs : List UInt8) : Request → List UInt8
  | copyOver _ => bs
  | _ => []

theorem serve_of_le {d : Decoder} {request : Request} (h : request.width ≤ d.remaining) :
    d.serve request =
      .done (request.reply d.order (d.unread.take request.width))
        (request.filled (d.unread.take request.width), d.advance request.width) := by
  -- every request goes through `take`, and the cases differ in what they make of the bytes
  cases request with
  | word w =>
    change w ≤ d.remaining at h
    rw [serve, word_of_le h]
    rfl
  | take count =>
    change count ≤ d.remaining at h
    rw [serve, take_of_le h]
    rfl
  | skip count =>
    change count ≤ d.remaining at h
    rw [serve, skip_of_le h]
    rfl
  | copyOver destination =>
    change destination.length ≤ d.remaining at h
    rw [serve, copyOver_of_le h]
    rfl

theorem serve_of_lt {d : Decoder} {request : Request} (h : d.remaining < request.width) :
    d.serve request =
      .fail (.shortRead request.width d.remaining) (request.destination, d) := by
  cases request with
  | word w =>
    change d.remaining < w at h
    rw [serve, word_of_lt h]
    rfl
  | take count =>
    change d.remaining < count at h
    rw [serve, take_of_lt h]
    rfl
  | skip count =>
    change d.remaining < count at h
    rw [serve, skip_of_lt h]
    rfl
  | copyOver destination =>
    change d.remaining < destination.length at h
    rw [serve, copyOver_of_lt h]
    rfl

theorem exists_reply_iff (d : Decoder) (request : Request) :
    (∃ reply, (d.serve request).result = .ok reply) ↔ request.width ≤ d.remaining := by
  constructor
  · intro ⟨reply, hreply⟩
    refine Nat.le_of_not_lt fun hlt => ?_
    rw [serve_of_lt hlt] at hreply
    cases hreply
  · intro h
    rw [serve_of_le h]
    exact ⟨_, rfl⟩

/-- What a request to a decoder comes to. With bytes enough left it is served with the next ones;
otherwise it is a short read that says how many bytes were asked for and how many are left, and a
smaller request may still be served. -/
structure Answers (d : Decoder) (request : Request) : Prop where
  served_iff : (∃ reply, (d.serve request).result = .ok reply) ↔ request.width ≤ d.remaining
  served : request.width ≤ d.remaining →
    d.serve request =
      .done (request.reply d.order (d.unread.take request.width))
        (request.filled (d.unread.take request.width), d.advance request.width)
  refused : d.remaining < request.width →
    ∃ e, d.serve request = .fail e (request.destination, d) ∧
      e = .shortRead request.width d.remaining ∧ e.isShortRead = true ∧
      e.message = "I/O error: " ++ ("short read: need " ++ toString request.width ++ " bytes, " ++
        toString d.remaining ++ " available")
  retried : d.remaining < request.width → ∀ smaller : Request, smaller.width ≤ d.remaining →
    ∃ reply, ((d.serve request).state.2.serve smaller).result = .ok reply

theorem answers (d : Decoder) (request : Request) : d.Answers request where
  served_iff := d.exists_reply_iff request
  served := serve_of_le
  refused h := ⟨_, serve_of_lt h, rfl, rfl, rfl⟩
  retried h smaller hsmaller := by
    rw [serve_of_lt h]
    exact (d.exists_reply_iff smaller).2 hsmaller

/-! ## Requests in a row -/

/-- The decoder that requests in a row leave, also behind those that fail. -/
def after (d : Decoder) (requests : List Request) : Decoder :=
  requests.foldl (fun d request => (d.serve request).state.2) d

/-- The bytes that a request takes: none if it fails. -/
def spent (d : Decoder) (request : Request) : List UInt8 :=
  match (d.serve request).result with
  | .ok _ => d.unread.take request.width
  | .error _ => []

/-- The bytes that requests in a row take. -/
def consumed (d : Decoder) : List Request → List UInt8
  | [] => []
  | request :: requests => d.spent request ++ consumed (d.serve request).state.2 requests

theorem after_cons (d : Decoder) (request : Request) (requests : List Request) :
    d.after (request :: requests) = (d.serve request).state.2.after requests := rfl

theorem order_serve (d : Decoder) (request : Request) :
    (d.serve request).state.2.order = d.order := by
  obtain h | h := Nat.lt_or_ge d.remaining request.width
  · rw [serve_of_lt h]
    rfl
  · rw [serve_of_le h]
    rfl

theorem spent_append (d : Decoder) (request : Request) :
    d.spent request ++ (d.serve request).state.2.unread = d.unread := by
  obtain h | h := Nat.lt_or_ge d.remaining request.width
  · rw [spent, serve_of_lt h]
    rfl
  · rw [spent, serve_of_le h]
    exact List.take_append_drop request.width d.unread

theorem order_after (d : Decoder) (requests : List Request) :
    (d.after requests).order = d.order := by
  induction requests generalizing d with
  | nil => rfl
  | cons request requests ih => rw [after_cons, ih, order_serve]

theorem consumed_append (d : Decoder) (requests : List Request) :
    d.consumed requests ++ (d.after requests).unread = d.unread := by
  induction requests generalizing d with
  | nil => rfl
  | cons request requests ih =>
    rw [consumed, after_cons, List.append_assoc, ih, spent_append]

/-- **A cursor over a buffer.** Behind any requests, whether or not they were served, the order is
as at the start, and the unread bytes are the end of the buffer, with the bytes that were taken
before them. The next request is served just if it asks for no more than is left, with exactly the
next bytes; otherwise it takes nothing and leaves its destination alone. -/
theorem serve_after (d : Decoder) (requests : List Request) (request : Request) :
    (d.after requests).order = d.order ∧
      (d.after requests).unread <:+ d.unread ∧
      d.consumed requests ++ (d.after requests).unread = d.unread ∧
      (d.after requests).Answers request :=
  ⟨d.order_after requests, ⟨d.consumed requests, d.consumed_append requests⟩,
    d.consumed_append requests, (d.after requests).answers request⟩

/-- From five bytes two are taken. Four more are not left, for a word or a destination; then two
are read as a word. -/
theorem serve_after_fiveBytes :
    (Decoder.mk .big [1, 2, 3, 4, 5]).after [.take 2, .word 4] = ⟨.big, [3, 4, 5]⟩ ∧
      (Decoder.mk .big [3, 4, 5]).serve (.copyOver [6, 7, 8, 9]) =
        .fail (.shortRead 4 3) ([6, 7, 8, 9], ⟨.big, [3, 4, 5]⟩) ∧
      (Decoder.mk .big [3, 4, 5]).serve (.word 2) = .done (.word 2 0x0304) ([], ⟨.big, [5]⟩) := by
  have hcopy := (serve_after ⟨.big, [1, 2, 3, 4, 5]⟩ [.take 2, .word 4]
    (.copyOver [6, 7, 8, 9])).2.2.2
  have hword := (serve_after ⟨.big, [1, 2, 3, 4, 5]⟩ [.take 2, .word 4] (.word 2)).2.2.2
  obtain ⟨e, hfail, rfl, -, -⟩ := hcopy.refused (by decide)
  exact ⟨rfl, hfail, (hword.served (by decide)).trans rfl⟩

end ByteExact.Decoder
