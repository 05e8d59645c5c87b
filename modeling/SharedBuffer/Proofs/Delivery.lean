import SharedBuffer.Stream

/-!
What a source brings, apart from any buffer. Main statements: every request is for some bytes, for no
more than a block and for no more than are still wanted; and whatever the sizes in which a source hands
out its bytes and however often it is interrupted, what is taken of it are the first bytes that were
wanted, and the rest is left.
-/

namespace SharedBuffer.Stream

variable {σ : Type}

structure Delivery (σ : Type) where
  requests : List (Nat × Bytes)
  failure : Option String
  rest : σ

namespace Delivery

def asked (d : Delivery σ) : List Nat := d.requests.map Prod.fst

def bytes (d : Delivery σ) : Bytes := d.requests.flatMap Prod.snd

def pieces (d : Delivery σ) : List Bytes :=
  (d.requests.map Prod.snd).filter fun piece => !piece.isEmpty

def behind (asked : Nat) (piece : Bytes) (d : Delivery σ) : Delivery σ :=
  { d with requests := (asked, piece) :: d.requests }

@[simp] theorem asked_behind (n : Nat) (piece : Bytes) (d : Delivery σ) :
    (d.behind n piece).asked = n :: d.asked := rfl

@[simp] theorem bytes_behind (n : Nat) (piece : Bytes) (d : Delivery σ) :
    (d.behind n piece).bytes = piece ++ d.bytes := rfl

@[simp] theorem failure_behind (n : Nat) (piece : Bytes) (d : Delivery σ) :
    (d.behind n piece).failure = d.failure := rfl

@[simp] theorem rest_behind (n : Nat) (piece : Bytes) (d : Delivery σ) :
    (d.behind n piece).rest = d.rest := rfl

theorem pieces_behind {piece : Bytes} (h : piece ≠ []) (n : Nat) (d : Delivery σ) :
    (d.behind n piece).pieces = piece :: d.pieces :=
  List.filter_cons_of_pos (by simpa using h)

theorem flatten_pieces (d : Delivery σ) : d.pieces.flatten = d.bytes := by
  rw [pieces, List.flatten_filter_not_isEmpty, bytes, List.flatMap_def]

end Delivery

def deliver (r : Reader σ) (demand : Nat) (s : σ) : Delivery σ :=
  if _hd : demand = 0 then ⟨[], none, s⟩
  else
    let asked := min demand blockSize
    match _hr : r.read asked s with
    | (.interrupted, t) => (deliver r demand t).behind asked []
    | (.broken reason, t) => ⟨[(asked, [])], some reason, t⟩
    | (.bytes bytes, t) =>
      if _hb : bytes = [] then ⟨[(asked, [])], none, t⟩
      else (deliver r (demand - bytes.length) t).behind asked bytes
termination_by (demand, r.patience (min demand blockSize) s)
decreasing_by
  · exact Prod.Lex.right _ (r.patience_lt _hr)
  · have := List.length_pos_iff.2 _hb
    exact Prod.Lex.left _ _ (by omega)

section Equations

variable {r : Reader σ} {s t : σ} {demand : Nat} {reason : String} {piece : Bytes}

theorem deliver_zero (r : Reader σ) (s : σ) : deliver r 0 s = ⟨[], none, s⟩ := by
  rw [deliver, dif_pos rfl]

theorem deliver_interrupted (hd : demand ≠ 0)
    (hr : r.read (min demand blockSize) s = (.interrupted, t)) :
    deliver r demand s = (deliver r demand t).behind (min demand blockSize) [] := by
  rw [deliver, dif_neg hd]
  dsimp only
  rw [hr]

theorem deliver_broken (hd : demand ≠ 0)
    (hr : r.read (min demand blockSize) s = (.broken reason, t)) :
    deliver r demand s = ⟨[(min demand blockSize, [])], some reason, t⟩ := by
  rw [deliver, dif_neg hd]
  dsimp only
  rw [hr]

theorem deliver_ended (hd : demand ≠ 0) (hr : r.read (min demand blockSize) s = (.bytes [], t)) :
    deliver r demand s = ⟨[(min demand blockSize, [])], none, t⟩ := by
  rw [deliver, dif_neg hd]
  dsimp only
  rw [hr]
  rfl

theorem deliver_piece (hd : demand ≠ 0) (hr : r.read (min demand blockSize) s = (.bytes piece, t))
    (hsome : piece ≠ []) :
    deliver r demand s =
      (deliver r (demand - piece.length) t).behind (min demand blockSize) piece := by
  rw [deliver, dif_neg hd]
  dsimp only
  rw [hr]
  exact dif_neg hsome

end Equations

/-- Each request is for at least one byte, at most a block, and no more than what is still wanted. -/
inductive Requests : Nat → List (Nat × Bytes) → Prop
  | done {demand} : Requests demand []
  | ask {demand asked piece rest} (nonempty : 0 < asked) (block : asked ≤ blockSize)
      (wanted : asked ≤ demand) (fits : piece.length ≤ asked)
      (next : Requests (demand - piece.length) rest) : Requests demand ((asked, piece) :: rest)

theorem Requests.ofBlock {demand : Nat} {piece : Bytes} {rest : List (Nat × Bytes)} (hd : demand ≠ 0)
    (fits : piece.length ≤ min demand blockSize) (next : Requests (demand - piece.length) rest) :
    Requests demand ((min demand blockSize, piece) :: rest) := by
  have hblock : 0 < blockSize := by decide
  exact .ask (by omega) (Nat.min_le_right _ _) (Nat.min_le_left _ _) fits next

theorem Requests.length_le {demand : Nat} {requests : List (Nat × Bytes)}
    (h : Requests demand requests) : (requests.flatMap Prod.snd).length ≤ demand := by
  induction h with
  | done => exact Nat.zero_le _
  | ask nonempty block wanted fits next ih =>
    rw [List.flatMap_cons, List.length_append]
    dsimp only
    omega

section Deliver

variable (r : Reader σ) (demand : Nat) (s : σ)

theorem requests_deliver : Requests demand (deliver r demand s).requests := by
  fun_induction deliver r demand s with
  | case1 => exact .done
  | case2 demand s hd asked t hr ih => exact .ofBlock hd (Nat.zero_le _) ih
  | case3 demand s hd => exact .ofBlock hd (Nat.zero_le _) .done
  | case4 demand s hd => exact .ofBlock hd (Nat.zero_le _) .done
  | case5 demand s hd asked bytes t hr hb ih => exact .ofBlock hd (r.length_le hr) ih

theorem length_deliver_le : (deliver r demand s).bytes.length ≤ demand :=
  (requests_deliver r demand s).length_le

end Deliver

inductive Close where
  | ended
  | broken (reason : String)

def Close.failure : Close → Option String
  | .ended => none
  | .broken reason => some reason

/-- A reply is the beginning of these bytes or of their end, and the source goes on with the rest. -/
inductive Brings (P : σ → Bytes → Option Close → Prop) :
    Reply × σ → Bytes → Option Close → Prop
  | interrupted {t bytes close} (next : P t bytes close) : Brings P (.interrupted, t) bytes close
  | ended {t} : Brings P (.bytes [], t) [] (some .ended)
  | broken {t reason} : Brings P (.broken reason, t) [] (some (.broken reason))
  | piece {t piece bytes close} (nonempty : piece ≠ []) (next : P t bytes close) :
      Brings P (.bytes piece, t) (piece ++ bytes) close
  | beyond {t piece bytes} (nonempty : piece ≠ []) (starts : bytes <+: piece) :
      Brings P (.bytes piece, t) bytes none

/-- Whatever it is asked for, the source has these bytes before its first end or failure. Without a
close they are the first of them, and nothing is said of what comes then. -/
inductive Delivers (r : Reader σ) : σ → Bytes → Option Close → Prop
  | unknown {s} : Delivers r s [] none
  | answers {s bytes close} (h : ∀ n, 0 < n → Brings (Delivers r) (r.read n s) bytes close) :
      Delivers r s bytes close

theorem Delivers.brings {r : Reader σ} {s : σ} {bytes : Bytes} {close : Option Close} {n : Nat}
    (h : Delivers r s bytes close) (hknown : 0 < bytes.length ∨ close ≠ none) (hn : 0 < n) :
    Brings (Delivers r) (r.read n s) bytes close := by
  cases h with
  | unknown => simp at hknown
  | answers h => exact h n hn

structure Delivery.First (d : Delivery σ) (r : Reader σ) (demand : Nat) (content : Bytes)
    (close : Option Close) : Prop where
  bytes : d.bytes = content.take demand
  failure : d.failure = if demand ≤ content.length then none else close.bind Close.failure
  rest : demand ≤ content.length → Delivers r d.rest (content.drop demand) close

section First

variable {r : Reader σ} {s t : σ} {content : Bytes} {close : Option Close} {demand n : Nat}

theorem Delivery.first_of_closed {c : Close} (hd : demand ≠ 0) :
    (⟨[(n, [])], c.failure, t⟩ : Delivery σ).First r demand [] (some c) where
  bytes := List.take_nil.symm
  failure := (if_neg fun h => hd (Nat.le_zero.1 h)).symm
  rest h := absurd (Nat.le_zero.1 h) hd

theorem Delivery.First.behind {d : Delivery σ} {piece : Bytes} (hle : piece.length ≤ demand)
    (h : d.First r (demand - piece.length) content close) :
    (d.behind n piece).First r demand (piece ++ content) close := by
  have hiff : demand ≤ (piece ++ content).length ↔ demand - piece.length ≤ content.length := by
    rw [List.length_append]
    omega
  constructor
  · rw [bytes_behind, h.bytes, List.take_append, List.take_of_length_le hle]
  · rw [failure_behind, h.failure]
    simp only [hiff]
  · intro hdemand
    rw [rest_behind, List.drop_append, List.drop_of_length_le hle]
    exact h.rest (hiff.1 hdemand)

theorem Delivers.reply {reply : Reply × σ} (h : Delivers r s content close)
    (hknown : demand ≤ content.length ∨ close ≠ none) (hd : demand ≠ 0)
    (hr : r.read (min demand blockSize) s = reply) : Brings (Delivers r) reply content close := by
  have hblock : 0 < blockSize := by decide
  rw [← hr]
  exact h.brings (hknown.imp_left fun _ => by omega) (by omega)

theorem first_deliver (r : Reader σ) (demand : Nat) (s : σ) (h : Delivers r s content close)
    (hknown : demand ≤ content.length ∨ close ≠ none) :
    (deliver r demand s).First r demand content close := by
  fun_induction deliver r demand s generalizing content with
  | case1 s => exact ⟨rfl, (if_pos (Nat.zero_le _)).symm, fun _ => h⟩
  | case2 demand s hd asked t hr =>
    rename_i ih
    cases h.reply hknown hd hr with
    | interrupted next => exact (ih next hknown).behind (Nat.zero_le _)
  | case3 demand s hd asked reason t =>
    rename_i hr
    cases h.reply hknown hd hr with
    | broken => exact Delivery.first_of_closed (c := .broken reason) hd
  | case4 demand s hd asked t =>
    rename_i hr
    cases h.reply hknown hd hr with
    | ended => exact Delivery.first_of_closed (c := .ended) hd
    | piece hsome => exact absurd rfl hsome
    | beyond hsome => exact absurd rfl hsome
  | case5 demand s hd asked piece t hr hb =>
    rename_i ih
    have hle : piece.length ≤ demand := Nat.le_trans (r.length_le hr) (Nat.min_le_left _ _)
    cases h.reply hknown hd hr with
    | ended => exact absurd rfl hb
    | piece hsome next =>
      refine (ih next (hknown.imp_left fun hlen => ?_)).behind hle
      rw [List.length_append] at hlen
      omega
    | beyond hsome hstarts =>
      -- No more is known than was wanted, and the piece is no more than that either.
      have hlen := hknown.resolve_right fun h => h rfl
      obtain rfl := hstarts.eq_of_length_le (Nat.le_trans hle hlen)
      have hnone : demand - content.length ≤ 0 := by omega
      have hfirst := (ih .unknown (.inl hnone)).behind (n := asked) hle
      rwa [List.append_nil] at hfirst

end First

section Script

def contentOf : List Supply → Bytes
  | [] => []
  | .interrupted :: script => contentOf script
  | .broken _ :: _ => []
  | .chunk bytes :: script => if bytes = [] then [] else bytes ++ contentOf script

def closeOf : List Supply → Close
  | [] => .ended
  | .interrupted :: script => closeOf script
  | .broken reason :: _ => .broken reason
  | .chunk bytes :: script => if bytes = [] then .ended else closeOf script

theorem delivers_pending {script : List Supply} {content : Bytes} {close : Option Close}
    (h : Delivers Source.reader (.ofScript script) content close) (pending : Bytes) :
    Delivers Source.reader ⟨pending, script⟩ (pending ++ content) close := by
  induction hlen : pending.length using Nat.strongRecOn generalizing pending with
  | ind len ih =>
    cases pending with
    | nil => exact h
    | cons byte rest =>
      refine .answers fun n hn => ?_
      have hsome : (byte :: rest).take n ≠ [] := by
        rw [Ne, List.take_eq_nil_iff]
        simp only [reduceCtorEq, or_false]
        omega
      have hless : ((byte :: rest).drop n).length < len := by
        rw [List.length_drop, ← hlen, List.length_cons]
        omega
      have hpiece := Brings.piece hsome (ih _ hless ((byte :: rest).drop n) rfl)
      rwa [← List.append_assoc, List.take_append_drop] at hpiece

theorem delivers_script (script : List Supply) :
    Delivers Source.reader (.ofScript script) (contentOf script) (some (closeOf script)) := by
  induction script with
  | nil => exact .answers fun n _ => .ended
  | cons supply script ih =>
    cases supply with
    | interrupted => exact .answers fun n _ => .interrupted ih
    | broken reason => exact .answers fun n _ => .broken
    | chunk bytes =>
      cases bytes with
      | nil =>
        refine .answers fun n _ => ?_
        have hread : Source.reader.read n (.ofScript (.chunk [] :: script)) =
            (.bytes [], .ofScript script) := by
          simp only [Source.reader, Source.ofScript, Source.read, List.take_nil, List.drop_nil]
        rw [hread]
        exact .ended
      | cons byte rest =>
        exact .answers fun n hn => (delivers_pending ih (byte :: rest)).brings (.inr nofun) hn

theorem first_deliver_chunk (bytes : Bytes) :
    (deliver Source.reader bytes.length (.ofScript [.chunk bytes])).First Source.reader bytes.length
      bytes (some .ended) := by
  have hdelivers := delivers_script [.chunk bytes]
  have hcontent : contentOf [.chunk bytes] = bytes := by
    by_cases h : bytes = [] <;> simp [contentOf, h]
  have hclose : closeOf [.chunk bytes] = .ended := by
    simp only [closeOf, ite_self]
  rw [hcontent, hclose] at hdelivers
  exact first_deliver _ _ _ hdelivers (.inl (Nat.le_refl _))

end Script

end SharedBuffer.Stream
