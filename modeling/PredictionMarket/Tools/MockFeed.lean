import PredictionMarket.Tools.PythonJson
import PredictionMarket.Foundation.Binary64

/-! `mock_wss_server.py`: the feed that one client is sent. The mid price is a `float` that adds up
rounding errors, but never enough for another cent in a message. -/
namespace PredictionMarket.Tools.Mock
open Foundation

def decimalDigit (n : Nat) : CodePoint := .ofChar (Nat.digitChar n)

/-- A number of hundredths with two decimals. -/
def hundredthsText (n : Nat) : Text :=
  decimal (n / 100) ++ text "." ++ [decimalDigit (n / 10 % 10),decimalDigit (n % 10)]

/-- `f"{p:.2f}"`, of a price that is not negative. -/
def fmtPrice (p : ℚ) : Text := hundredthsText (nearest (p * 100)).toNat

/-- A list `[price, size]` of two strings. -/
def level (pair : Text × Text) : Value := .list [.str pair.1,.str pair.2]

/-- All of it is ASCII, which `ensure_ascii` leaves alone. -/
def makeL2 (bids asks : List (Text × Text)) : Text :=
  dumps (.dict [(text "bids",.list (bids.map level)),(text "asks",.list (asks.map level))])

def spread : ℚ := binary64 (2 / 100)
def phaseLen : Nat := 200
def bidBig : Nat := 5000
def bidSmall : Nat := 10
def askFixed : Nat := 1000

def bidOf (mid : ℚ) : ℚ := binary64 (mid - binary64 (spread / 2))
def askOf (mid : ℚ) : ℚ := binary64 (mid + binary64 (spread / 2))

/-- The two clamps of the mid price. -/
def clampMid (mid : ℚ) : ℚ :=
  let mid := if mid > binary64 (90 / 100) then binary64 (90 / 100) else mid
  if mid < binary64 (10 / 100) then binary64 (10 / 100) else mid

/-- The variables of the handler at the head of its loop. -/
structure Handler where
  mid : ℚ
  bid : ℚ
  ask : ℚ
  prevBid : ℚ
  prevAsk : ℚ
  i : Nat

namespace Handler

def start : Handler :=
  let mid := binary64 (58 / 100)
  ⟨mid,bidOf mid,askOf mid,bidOf mid,askOf mid,0⟩

def phase (h : Handler) : Nat := h.i / phaseLen % 2

def bidSize (h : Handler) : Nat := if h.phase = 0 then bidBig else bidSmall

def bids (h : Handler) : List (Text × Text) :=
  [(fmtPrice h.prevBid,text "0"),(fmtPrice h.bid,decimal h.bidSize)]

def asks (h : Handler) : List (Text × Text) :=
  [(fmtPrice h.prevAsk,text "0"),(fmtPrice h.ask,decimal askFixed)]

/-- The message of this turn. -/
def message (h : Handler) : Text := makeL2 h.bids h.asks

def step (h : Handler) : ℚ := if h.phase = 0 then binary64 (1 / 100) else -binary64 (1 / 100)

/-- The rest of the turn. -/
def next (h : Handler) : Handler :=
  let mid := clampMid (binary64 (h.mid + h.step))
  ⟨mid,bidOf mid,askOf mid,h.bid,h.ask,h.i + 1⟩

/-- The handler behind so many turns. -/
def behind : Nat → Handler
  | 0 => start
  | n + 1 => (behind n).next

end Handler

/-- The first messages of a connection. -/
def messages (turns : Nat) : List Text := (List.range turns).map fun i => (Handler.behind i).message

/-- The mid price in cents, without any rounding. -/
def midCents : Nat → Nat
  | 0 => 58
  | n + 1 => if n / phaseLen % 2 = 0 then min (midCents n + 1) 90 else max (midCents n - 1) 10

/-- The mid price of the levels that a turn clears. -/
def prevCents (n : Nat) : Nat := midCents (n - 1)

/-- The mid price stays within its range. -/
theorem midCents_bounds (n : Nat) : 10 ≤ midCents n ∧ midCents n ≤ 90 := by
  induction n with
  | zero => decide
  | succ n ih =>
    rw [midCents]
    split_ifs <;> omega

/-- A phase is long enough to come from one end of the range to the other. -/
theorem midCents_settled (n : Nat) : (n / phaseLen % 2 = 0 → min 90 (10 + n % phaseLen) ≤ midCents n) ∧
    (n / phaseLen % 2 = 1 → midCents n ≤ max 10 (90 - n % phaseLen)) := by
  unfold phaseLen
  induction n with
  | zero => exact ⟨fun _ => by decide,fun h => absurd h (by decide)⟩
  | succ n ih =>
    obtain ⟨hlow,hhigh⟩ := midCents_bounds n
    rw [midCents, phaseLen]
    split_ifs <;> omega

/-- The error that one turn can add. -/
def drift : ℚ := 1 / 2 ^ 52

section Rounding
variable {x e : ℚ} {c : Nat}

private theorem clampMid_near (h : |x - c / 100| ≤ 1 / 1000) :
    (clampMid x = x ∧ 10 ≤ c ∧ c ≤ 90) ∨ |clampMid x - (max (min c 90) 10 : Nat) / 100| ≤ drift := by
  -- What a clamp leaves alone is a price within its range, and anything else is on its bound.
  obtain ⟨hxlow,hxhigh⟩ := abs_le.mp h
  have htop := binary64_error (x := 90 / 100) (by norm_num)
  have hbottom := binary64_error (x := 10 / 100) (by norm_num)
  rw [abs_le] at htop hbottom
  norm_num at htop hbottom
  have hbelow : (c : ℚ) ≤ 89 ∨ 90 ≤ c := by
    rcases Nat.lt_or_ge c 90 with hc | hc
    · exact .inl (by exact_mod_cast Nat.le_of_lt_succ hc)
    · exact .inr hc
  have habove : 10 < c → (11 : ℚ) ≤ c := fun hc => by exact_mod_cast hc
  have hover : 90 < c → (91 : ℚ) ≤ c := fun hc => by exact_mod_cast hc
  have hunder : c < 10 → (c : ℚ) ≤ 9 := fun hc => by exact_mod_cast Nat.le_of_lt_succ hc
  by_cases hhigh : x > binary64 (90 / 100)
  · have hc : 90 ≤ c := hbelow.resolve_left fun hc => by linarith
    refine .inr ?_
    rw [clampMid, if_pos hhigh, if_neg (by linarith), Nat.min_eq_right hc, abs_le, drift]
    norm_num
    constructor <;> linarith
  by_cases hlow : x < binary64 (10 / 100)
  · have hc : c ≤ 10 := by
      by_contra hc
      have := habove (by omega)
      linarith
    refine .inr ?_
    rw [clampMid, if_neg hhigh, if_pos hlow, Nat.max_eq_right (by omega), abs_le, drift]
    norm_num
    constructor <;> linarith
  · refine .inl ⟨by rw [clampMid, if_neg hhigh, if_neg hlow],?_,?_⟩
    · by_contra hc
      have := hunder (by omega)
      linarith
    · by_contra hc
      have := hover (by omega)
      linarith

private theorem add_near {y z : ℚ} (h : |x - y| ≤ e) (hz : |z| ≤ 1 / 100) (hy : |y| ≤ 95 / 100)
    (he : e ≤ 1 / 1000) {w : ℚ} (hw : |w - z| ≤ 1 / 2 ^ 53) : |binary64 (x + w) - (y + z)| ≤ e + drift := by
  have hsmall : |x + w| ≤ 1 := by
    rw [abs_le] at h hz hy hw ⊢
    norm_num at hw
    constructor <;> linarith
  have herror := binary64_error hsmall
  rw [abs_le] at h hw herror ⊢
  rw [drift]
  norm_num at hw herror ⊢
  constructor <;> linarith

private theorem fmtPrice_near (h : |x - c / 100| ≤ 1 / 1000) : fmtPrice x = hundredthsText c := by
  have hclose : |x * 100 - (c : Int)| < 1 / 2 := by
    rw [abs_le] at h
    rw [Int.cast_natCast, abs_lt]
    constructor <;> linarith
  rw [fmtPrice, nearest_of_close hclose, Int.toNat_natCast]

end Rounding

namespace Handler

private theorem behind_i (n : Nat) : (behind n).i = n := by
  induction n with
  | zero => rfl
  | succ n ih => exact congrArg (· + 1) ih

/-- The phases take turns. -/
theorem behind_phase (n : Nat) : (behind n).phase = n / phaseLen % 2 := congrArg (· / phaseLen % 2) (behind_i n)

private theorem moved_near {n : Nat} {e : ℚ} (h : |(behind n).mid - midCents n / 100| ≤ e) (he : e ≤ 1 / 1000) :
    |binary64 ((behind n).mid + (behind n).step) -
      (if n / phaseLen % 2 = 0 then midCents n + 1 else midCents n - 1 : Nat) / 100| ≤ e + drift := by
  obtain ⟨hlow,hhigh⟩ := midCents_bounds n
  have hmid : |(midCents n : ℚ) / 100| ≤ 95 / 100 := by
    have : (midCents n : ℚ) ≤ 90 := by exact_mod_cast hhigh
    rw [abs_of_nonneg (by positivity)]
    linarith
  have hcent := binary64_error (x := 1 / 100) (by norm_num)
  rw [step, behind_phase]
  split_ifs
  · have hadd := add_near h (z := 1 / 100) (by norm_num) hmid he hcent
    rwa [show (midCents n : ℚ) / 100 + 1 / 100 = ((midCents n + 1 : Nat) : ℚ) / 100 by push_cast; ring] at hadd
  · have hminus : |-binary64 (1 / 100) - -(1 / 100)| ≤ 1 / 2 ^ 53 := by rwa [neg_sub_neg, abs_sub_comm]
    have hadd := add_near h (by norm_num) hmid he hminus
    rwa [show (midCents n : ℚ) / 100 + -(1 / 100) = ((midCents n - 1 : Nat) : ℚ) / 100 by
      rw [Nat.cast_sub (by omega)]; push_cast; ring] at hadd

/-- The error grows with the turns of a phase; the clamps that end the way of every phase
put an end to it. -/
theorem behind_mid_drift (n : Nat) :
    |(behind n).mid - midCents n / 100| ≤ ((n % phaseLen + 2 : Nat) : ℚ) * drift := by
  have hdrift : 0 ≤ drift := by norm_num [drift]
  induction n with
  | zero =>
    have herror := binary64_error (x := 58 / 100) (by norm_num)
    refine herror.trans ?_
    norm_num [drift]
  | succ n ih =>
    have hturns : n % phaseLen < phaseLen := Nat.mod_lt _ (by decide)
    have hcount : ((n % phaseLen + 2 : Nat) : ℚ) ≤ 201 := by
      rw [phaseLen] at hturns
      exact_mod_cast (by rw [phaseLen]; omega : n % phaseLen + 2 ≤ 201)
    have hsmall : ((n % phaseLen + 2 : Nat) : ℚ) * drift ≤ 201 * drift := mul_le_mul_of_nonneg_right hcount hdrift
    have hmoved := moved_near ih (hsmall.trans (by norm_num [drift]))
    have hbound : ((n % phaseLen + 2 : Nat) : ℚ) * drift + drift ≤ 1 / 1000 := by
      refine (add_le_add_left hsmall _).trans ?_
      norm_num [drift]
    have htarget : midCents (n + 1) =
        max (min (if n / phaseLen % 2 = 0 then midCents n + 1 else midCents n - 1) 90) 10 := by
      obtain ⟨hlow,hhigh⟩ := midCents_bounds n
      rw [midCents]
      split_ifs <;> omega
    rw [htarget]
    rcases clampMid_near (hmoved.trans hbound) with ⟨hsame,hlow,hhigh⟩ | hclamped
    · -- Nothing is clamped, so the phase goes on.
      have hgoes : (n + 1) % phaseLen = n % phaseLen + 1 := by
        obtain ⟨hup,hdown⟩ := midCents_settled n
        unfold phaseLen at *
        split_ifs at hlow hhigh <;> omega
      rw [Nat.min_eq_left hhigh, Nat.max_eq_left hlow, hgoes]
      change |clampMid _ - _| ≤ _
      rw [hsame]
      refine hmoved.trans (le_of_eq ?_)
      push_cast
      ring
    · refine hclamped.trans ?_
      refine le_mul_of_one_le_left hdrift ?_
      exact_mod_cast (by omega : 1 ≤ (n + 1) % phaseLen + 2)

/-- The mid price stays far closer to its cent than to another one. -/
theorem behind_mid (n : Nat) : |(behind n).mid - midCents n / 100| ≤ 1 / 10000 := by
  refine (behind_mid_drift n).trans ?_
  have hcount : ((n % phaseLen + 2 : Nat) : ℚ) ≤ 201 := by
    have := Nat.mod_lt n (show phaseLen > 0 by decide)
    exact_mod_cast (by unfold phaseLen at *; omega : n % phaseLen + 2 ≤ 201)
  refine (mul_le_mul_of_nonneg_right hcount (by norm_num [drift])).trans ?_
  norm_num [drift]

private theorem side_near (n : Nat) {z w : ℚ} (hz : |z| ≤ 1 / 100) (hw : |w - z| ≤ 1 / 2 ^ 53) :
    |binary64 ((behind n).mid + w) - (midCents n / 100 + z)| ≤ 1 / 1000 := by
  have hmid : |(midCents n : ℚ) / 100| ≤ 95 / 100 := by
    have : (midCents n : ℚ) ≤ 90 := by exact_mod_cast (midCents_bounds n).2
    rw [abs_of_nonneg (by positivity)]
    linarith
  refine (add_near (behind_mid n) hz hmid (by norm_num) hw).trans ?_
  norm_num [drift]

private theorem half_spread : |binary64 (spread / 2) - 1 / 100| ≤ 1 / 2 ^ 53 := by decide +kernel

private theorem bidOf_text (n : Nat) : fmtPrice (bidOf (behind n).mid) = hundredthsText (midCents n - 1) := by
  have hminus : |-binary64 (spread / 2) - -(1 / 100)| ≤ 1 / 2 ^ 53 := by
    rw [neg_sub_neg, abs_sub_comm]
    exact half_spread
  have hside := side_near n (by norm_num) hminus
  have hcents : (midCents n : ℚ) / 100 + -(1 / 100) = ((midCents n - 1 : Nat) : ℚ) / 100 := by
    have := (midCents_bounds n).1
    rw [Nat.cast_sub (by omega)]
    push_cast
    ring
  rw [hcents, ← sub_eq_add_neg] at hside
  exact fmtPrice_near hside

private theorem askOf_text (n : Nat) : fmtPrice (askOf (behind n).mid) = hundredthsText (midCents n + 1) := by
  have hside := side_near n (by norm_num) half_spread
  have hcents : (midCents n : ℚ) / 100 + 1 / 100 = ((midCents n + 1 : Nat) : ℚ) / 100 := by
    push_cast
    ring
  rw [hcents] at hside
  exact fmtPrice_near hside

private theorem behind_sides (n : Nat) : (behind n).bid = bidOf (behind n).mid ∧ (behind n).ask = askOf (behind n).mid := by
  cases n <;> exact ⟨rfl,rfl⟩

private theorem behind_prev (n : Nat) :
    (behind n).prevBid = (behind (n - 1)).bid ∧ (behind n).prevAsk = (behind (n - 1)).ask := by
  cases n <;> exact ⟨rfl,rfl⟩

/-- The bids of a message, in cents. -/
theorem behind_bids (n : Nat) : (behind n).bids = [(hundredthsText (prevCents n - 1),text "0"),
    (hundredthsText (midCents n - 1),decimal (behind n).bidSize)] := by
  rw [bids, (behind_prev n).1, (behind_sides n).1, (behind_sides (n - 1)).1, bidOf_text, bidOf_text, prevCents]

/-- The asks of a turn are the old level, taken away, and the new one. -/
theorem behind_asks (n : Nat) : (behind n).asks = [(hundredthsText (prevCents n + 1),text "0"),
    (hundredthsText (midCents n + 1),decimal askFixed)] := by
  rw [asks, (behind_prev n).2, (behind_sides n).2, (behind_sides (n - 1)).2, askOf_text, askOf_text, prevCents]

private theorem bidSize_values (h : Handler) : h.bidSize = bidBig ∨ h.bidSize = bidSmall := by
  rw [bidSize]
  split_ifs
  · exact .inl rfl
  · exact .inr rfl

end Handler

private theorem price_quoted {c : Nat} (h : c < 100) : (quoted (hundredthsText c)).length = 6 := by
  have hall : ∀ c : Fin 100, (quoted (hundredthsText c)).length = 6 := by decide +kernel
  exact hall ⟨c,h⟩

private theorem makeL2_length (bid bid' ask ask' : Text × Text) : (makeL2 [bid,bid'] [ask,ask']).length =
    ([bid,bid',ask,ask'].map fun pair => (quoted pair.1).length + (quoted pair.2).length).sum + 35 := by
  simp only [makeL2, level, dumps, dumpsEntries, dumpsEntry, dumpsElements, List.map_cons, List.map_nil,
    List.length_append, List.sum_cons, List.sum_nil]
  have hkeys : (quoted (text "bids")).length = 6 ∧ (quoted (text "asks")).length = 6 := by decide
  rw [hkeys.1, hkeys.2]
  simp only [text, List.length_map, String.length_toList]
  have hsigns : "\x7b".length = 1 ∧ "\x7d".length = 1 ∧ "[".length = 1 ∧ "]".length = 1 ∧ ",".length = 1 ∧
      ":".length = 1 := by decide
  omega

/-- A message has some bytes, and no more than a hundred. -/
theorem Handler.message_length (n : Nat) : 0 < (behind n).message.length ∧ (behind n).message.length ≤ 100 := by
  obtain ⟨hlow,hhigh⟩ := midCents_bounds n
  obtain ⟨hplow,hphigh⟩ := midCents_bounds (n - 1)
  have hsizes : (quoted (text "0")).length = 3 ∧ (quoted (decimal askFixed)).length = 6 ∧
      (quoted (decimal bidBig)).length = 6 ∧ (quoted (decimal bidSmall)).length = 4 := by decide +kernel
  have hbid : (quoted (decimal (behind n).bidSize)).length ≤ 6 := by
    rcases (behind n).bidSize_values with h | h <;> rw [h] <;> omega
  rw [message, behind_bids, behind_asks, makeL2_length]
  simp only [List.map_cons, List.map_nil, List.sum_cons, List.sum_nil, prevCents]
  rw [price_quoted (by omega), price_quoted (by omega), price_quoted (by omega), price_quoted (by omega)]
  omega

/-- The feed in whole cents: however long it runs, no message shows that the mid price is a sum of
rounded numbers, and no price leaves the range between 9 and 91 cents. -/
theorem feed_in_cents (n : Nat) :
    (Handler.behind n).message = makeL2
      [(hundredthsText (prevCents n - 1),text "0"),
        (hundredthsText (midCents n - 1),decimal (if n / phaseLen % 2 = 0 then bidBig else bidSmall))]
      [(hundredthsText (prevCents n + 1),text "0"),(hundredthsText (midCents n + 1),decimal askFixed)] ∧
    10 ≤ midCents n ∧ midCents n ≤ 90 := by
  refine ⟨?_,midCents_bounds n⟩
  rw [Handler.message, Handler.behind_bids, Handler.behind_asks, Handler.bidSize, Handler.behind_phase]

end PredictionMarket.Tools.Mock
