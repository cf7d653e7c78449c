import Mathlib.Order.Nat
import ShellChain.Lib.TransitionSystem
import ShellChain.Primitives

/-!
# The bandwidth bucket

`TokenBucket` credits the nanoseconds that have passed with tokens and with a remainder of a token, up to its capacity. Tokens
and remainder are one number, the credit in parts of a token. A refill adds to it what the elapsed time is worth and cuts it
at the capacity, so refills compose, and what is allowed is paid for by the credit.
-/

namespace ShellChain

/-- The largest `u128`. -/
def u128Max : Nat :=
  2 ^ 128 - 1

/-- `Duration::from_secs(1).as_nanos()`. -/
def nanosPerSec : Nat :=
  10 ^ 9

/-- `TokenBucket`. An `Instant` is a number of nanoseconds. -/
@[ext] structure TokenBucket where
  tokens : Nat
  refillPerSec : Nat
  capacity : Nat
  lastRefill : Nat
  refillRemainder : Nat

namespace TokenBucket

/-- `TokenBucket::new` at the time `now`. -/
def new (refillPerSec now : Nat) : TokenBucket :=
  ⟨refillPerSec, refillPerSec, saturatingAdd refillPerSec (refillPerSec / 2), now, 0⟩

def refill (b : TokenBucket) (now : Nat) : TokenBucket :=
  let elapsedNanos := now - b.lastRefill
  if elapsedNanos = 0 ∨ b.refillPerSec = 0 then b
  else
    let credit := min (min (elapsedNanos * b.refillPerSec) u128Max + b.refillRemainder) u128Max
    let tokens := min (b.tokens + credit / nanosPerSec) b.capacity
    { b with
      tokens
      refillRemainder := if tokens = b.capacity then 0 else credit % nanosPerSec
      lastRefill := now }

def allow (b : TokenBucket) (bytes now : Nat) : Bool × TokenBucket :=
  let b := b.refill now
  if bytes > b.tokens then (false, b) else (true, { b with tokens := b.tokens - bytes })

/-- Calls of `allow`, each with its bytes and its time. -/
def calls : TransitionSystem TokenBucket (Nat × Nat) where
  step b call := (b.allow call.1 call.2).2

def allowedBytes : TokenBucket → List (Nat × Nat) → Nat
  | _, [] => 0
  | b, call :: rest => (if (b.allow call.1 call.2).1 then call.1 else 0) + allowedBytes (calls.step b call) rest

/-- Tokens and remainder in parts of a token. -/
def credit (b : TokenBucket) : Nat :=
  nanosPerSec * b.tokens + b.refillRemainder

/-- A bucket of a rate whose remainder is less than a token and whose credit is within the capacity. -/
structure Sound (rate : Nat) (b : TokenBucket) : Prop where
  perSec : b.refillPerSec = rate
  limit : b.capacity = saturatingAdd rate (rate / 2)
  remainder : b.refillRemainder < nanosPerSec
  within : b.credit ≤ nanosPerSec * b.capacity

/-- The call is not before the last refill. -/
def OnTime (b : TokenBucket) (call : Nat × Nat) : Prop :=
  b.lastRefill ≤ call.2

variable {rate now : Nat} {b : TokenBucket} {l : List (Nat × Nat)}

theorem sound_new (hrate : rate ≤ u64Max) (created : Nat) : Sound rate (new rate created) := by
  refine ⟨rfl, rfl, show 0 < nanosPerSec by decide, Nat.mul_le_mul_left _ ?_⟩
  exact le_min (Nat.le_add_right _ _) hrate

/-- The credit of a sound bucket determines its tokens and its remainder. -/
theorem Sound.eq_of_credit (h : Sound rate b) {c : TokenBucket} (hc : Sound rate c) (hlast : b.lastRefill = c.lastRefill)
    (hcredit : b.credit = c.credit) : b = c := by
  have hb := h.remainder
  have hrest := hc.remainder
  simp only [credit, nanosPerSec] at *
  exact TokenBucket.ext (by omega) (h.perSec.trans hc.perSec.symm) (h.limit.trans hc.limit.symm) hlast (by omega)

section

variable (h : Sound rate b) (hpos : 0 < rate)

include h hpos

/-- A refill adds the worth of the elapsed time to the credit, up to the capacity. -/
theorem Sound.refill (hnow : b.lastRefill ≤ now) : Sound rate (b.refill now) ∧ (b.refill now).lastRefill = now ∧
    (b.refill now).credit = min (b.credit + rate * (now - b.lastRefill)) (nanosPerSec * b.capacity) := by
  have hlimit : b.capacity ≤ u64Max := by
    rw [h.limit]
    exact min_le_right _ _
  obtain rfl := h.perSec
  unfold TokenBucket.refill
  by_cases helapsed : now - b.lastRefill = 0
  · rw [if_pos (.inl helapsed), helapsed, Nat.mul_zero, Nat.add_zero, min_eq_left h.within]
    exact ⟨h, by omega, rfl⟩
  rw [if_neg (by omega), Nat.mul_comm b.refillPerSec]
  generalize (now - b.lastRefill) * b.refillPerSec = worth
  generalize hsum : min (min worth u128Max + b.refillRemainder) u128Max = sum
  have hparts := Nat.div_add_mod sum nanosPerSec
  by_cases hfull : b.capacity ≤ b.tokens + sum / nanosPerSec
  · have hcredit : nanosPerSec * b.capacity ≤ b.credit + worth := by
      have := Nat.mul_le_mul_left nanosPerSec hfull
      rw [Nat.mul_add] at this
      unfold credit
      omega
    simp only [min_eq_right hfull, min_eq_right hcredit, if_true]
    exact ⟨⟨rfl, h.limit, show 0 < nanosPerSec by decide, le_rfl⟩, trivial, rfl⟩
  · -- a sum that saturates would fill the bucket
    have hexact : sum = b.refillRemainder + worth := by
      have hmax : u64Max ≤ u128Max / nanosPerSec := by decide
      have hsaturates : sum = b.refillRemainder + worth ∨ sum = u128Max := by omega
      refine hsaturates.resolve_right fun hsum => hfull ?_
      rw [hsum]
      omega
    have hcredit : nanosPerSec * (b.tokens + sum / nanosPerSec) + sum % nanosPerSec = b.credit + worth := by
      rw [Nat.mul_add, Nat.add_assoc, hparts, hexact, ← Nat.add_assoc]
      rfl
    have hmod := Nat.mod_lt sum (by decide : 0 < nanosPerSec)
    have hroom := Nat.mul_le_mul_left nanosPerSec (Nat.lt_of_not_le hfull)
    rw [Nat.mul_succ] at hroom
    have hle : b.credit + worth ≤ nanosPerSec * b.capacity := by omega
    simp only [min_eq_left (Nat.le_of_not_le hfull), if_neg (Nat.lt_of_not_le hfull).ne, min_eq_left hle]
    exact ⟨⟨rfl, h.limit, hmod, hcredit.le.trans hle⟩, trivial, hcredit⟩

/-- Refills compose: one at an earlier time changes nothing. -/
theorem Sound.refill_refill {t : Nat} (ht : b.lastRefill ≤ t) (hnow : t ≤ now) :
    (b.refill t).refill now = b.refill now := by
  obtain ⟨hsound, hlast, hcredit⟩ := h.refill hpos ht
  obtain ⟨hsound', hlast', hcredit'⟩ := hsound.refill hpos (hlast.le.trans hnow)
  obtain ⟨hsound'', hlast'', hcredit''⟩ := h.refill hpos (ht.trans hnow)
  refine hsound'.eq_of_credit hsound'' (hlast'.trans hlast''.symm) ?_
  have hworth : rate * (now - b.lastRefill) = rate * (t - b.lastRefill) + rate * (now - t) := by
    rw [← Nat.mul_add]
    congr 1
    omega
  rw [hcredit', hcredit'', hcredit, hlast, hsound.limit.trans h.limit.symm, hworth]
  generalize nanosPerSec * b.capacity = limit
  omega

theorem Sound.refill_list {times : List Nat} (hsorted : (b.lastRefill :: (times ++ [now])).Pairwise (· ≤ ·)) :
    (times.foldl TokenBucket.refill b).refill now = b.refill now := by
  induction times generalizing b with
  | nil => rfl
  | cons t times ih =>
    obtain ⟨hfirst, hrest⟩ := List.pairwise_cons.mp hsorted
    obtain ⟨hsound, hlast, -⟩ := h.refill hpos (hfirst t List.mem_cons_self)
    rw [List.cons_append, ← hlast] at hrest
    refine (ih hsound hrest).trans (h.refill_refill hpos (hfirst t List.mem_cons_self) ?_)
    exact hlast ▸ (List.pairwise_cons.mp hrest).1 now (by simp)

/-- A call refills, and then takes what it allows. -/
theorem Sound.step {call : Nat × Nat} (hnow : b.OnTime call) :
    Sound rate (calls.step b call) ∧ (calls.step b call).lastRefill = call.2 ∧
      nanosPerSec * (if (b.allow call.1 call.2).1 = true then call.1 else 0) + (calls.step b call).credit =
        min (b.credit + rate * (call.2 - b.lastRefill)) (nanosPerSec * b.capacity) := by
  obtain ⟨hsound, hlast, hcredit⟩ := h.refill hpos hnow
  rw [← hcredit]
  simp only [calls, allow]
  split
  · exact ⟨hsound, hlast, by simp⟩
  · rename_i hle
    have hspent : nanosPerSec * call.1 + credit { b.refill call.2 with tokens := (b.refill call.2).tokens - call.1 } =
        (b.refill call.2).credit := by
      simp only [credit]
      rw [← Nat.add_assoc, ← Nat.mul_add, Nat.add_sub_cancel' (Nat.le_of_not_lt hle)]
    have hwithin := (Nat.le_add_left _ _).trans (hspent.le.trans hsound.within)
    exact ⟨⟨hsound.perSec, hsound.limit, hsound.remainder, hwithin⟩, hlast, hspent⟩

theorem Sound.admits (hsorted : (b.lastRefill :: l.map Prod.snd).Pairwise (· ≤ ·)) : calls.Admits OnTime b l := by
  induction l generalizing b with
  | nil => trivial
  | cons call l ih =>
    obtain ⟨hfirst, hrest⟩ := List.pairwise_cons.mp hsorted
    have hnow : b.OnTime call := hfirst _ List.mem_cons_self
    obtain ⟨hsound, hlast, -⟩ := h.step hpos hnow
    exact ⟨hnow, ih hsound (hlast ▸ hrest)⟩

/-- What calls up to a time are allowed is paid for by the credit and the worth of the time. -/
theorem Sound.allowedBytes_le (hl : calls.Admits OnTime b l) {stop : Nat} (hstop : b.lastRefill ≤ stop)
    (hcalls : ∀ call ∈ l, call.2 ≤ stop) :
    nanosPerSec * allowedBytes b l + rate * b.lastRefill ≤ b.credit + rate * stop := by
  induction l generalizing b with
  | nil => exact Nat.add_le_add (Nat.zero_le _) (Nat.mul_le_mul_left rate hstop)
  | cons call l ih =>
    obtain ⟨hsound, hlast, hpaid⟩ := h.step hpos hl.1
    obtain ⟨hcall, hcalls⟩ := List.forall_mem_cons.mp hcalls
    have hrest := ih hsound hl.2 (hlast.le.trans hcall) hcalls
    have hworth : rate * (call.2 - b.lastRefill) + rate * b.lastRefill = rate * call.2 := by
      rw [← Nat.mul_add, Nat.sub_add_cancel hl.1]
    rw [hlast] at hrest
    rw [allowedBytes, Nat.mul_add]
    omega

end

/-- For every rate and all calls at times that do not decrease: the remainder is less than a token, the tokens are within the
capacity, what the calls from one time to another are allowed is within the capacity and the worth of the time between them,
and refills at intermediate times leave the bucket that the last one alone leaves. -/
theorem bandwidth_bounded {rate created : Nat} {before during : List (Nat × Nat)} (hpos : 0 < rate) (hrate : rate ≤ u64Max)
    (hsorted : (created :: (before ++ during).map Prod.snd).Pairwise (· ≤ ·)) :
    (calls.run (new rate created) before).capacity = min u64Max (rate + rate / 2) ∧
      (calls.run (new rate created) before).refillRemainder < nanosPerSec ∧
      (calls.run (new rate created) before).tokens ≤ (calls.run (new rate created) before).capacity ∧
      (∀ start t, (∀ call ∈ during, start ≤ call.2 ∧ call.2 ≤ start + t) →
        allowedBytes (calls.run (new rate created) before) during ≤
          min u64Max (rate + rate / 2) + (rate * t + (nanosPerSec - 1)) / nanosPerSec) ∧
      ∀ times now, ((calls.run (new rate created) before).lastRefill :: (times ++ [now])).Pairwise (· ≤ ·) →
        (times.foldl refill (calls.run (new rate created) before)).refill now =
          (calls.run (new rate created) before).refill now := by
  have hnew := sound_new hrate created
  obtain ⟨hbefore, hduring⟩ := TransitionSystem.admits_append.mp (hnew.admits hpos hsorted)
  have hsound := TransitionSystem.invariant_run (fun _ _ h hnow => (h.step hpos hnow).1) hnew hbefore
  have hcapacity := hsound.limit.trans (min_comm _ _)
  refine ⟨hcapacity, hsound.remainder, ?_, fun start t hcalls => ?_, fun _ _ => hsound.refill_list hpos⟩
  · exact Nat.le_of_mul_le_mul_left ((Nat.le_add_right _ _).trans hsound.within) (by decide)
  rw [← hcapacity]
  cases during with
  | nil => exact Nat.zero_le _
  | cons call rest =>
    obtain ⟨hnext, hlast, hpaid⟩ := hsound.step hpos hduring.1
    obtain ⟨hcall, hrest⟩ := List.forall_mem_cons.mp hcalls
    have hallowed := hnext.allowedBytes_le hpos hduring.2 (hlast.le.trans hcall.2) fun c hc => (hrest c hc).2
    have hmono := Nat.mul_le_mul_left rate hcall.1
    rw [hlast, Nat.mul_add] at hallowed
    rw [allowedBytes]
    simp only [nanosPerSec] at *
    omega

/-- A bucket of one byte per second that is asked twice. -/
theorem bandwidth_bounded_twice : 0 < 1 ∧ 1 ≤ u64Max ∧ [0, 0, 5].Pairwise (· ≤ ·) ∧
    allowedBytes (new 1 0) [(1, 0), (1, 5)] ≤ min u64Max (1 + 1 / 2) + (1 * 5 + (nanosPerSec - 1)) / nanosPerSec :=
  ⟨by decide, by decide, by decide,
    (@bandwidth_bounded 1 0 [] _ (by decide) (by decide) (by decide)).2.2.2.1 0 5 (by decide)⟩

end TokenBucket

end ShellChain
