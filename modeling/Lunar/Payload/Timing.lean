/-
# The timeline of a solve

`payload/timing.rs`: the stamps of a page load, in microseconds on a clock of ticks of a tenth
of a millisecond, with gaps that are drawn or were measured.  A draw of `tri` is any double
within its bounds.  In `build`, `measured`, `synthetic` and `lite` a `none` is a sum or a
difference that wraps; the sums of `span` wrap.
-/

import Lunar.Lib.Checked
import Lunar.Lib.Double.Bounds
import Lunar.Lib.Double.Fixed

namespace Lunar
namespace Timing

open Lib

def TICK_US : ℕ := 100

def UPTIME_US : ℕ × ℕ := (1000000000, 100000000000)

/-- The bounds and the mode of a draw, in milliseconds. -/
structure Bounds where
  lo : Double
  mode : Double
  hi : Double

/-- The bounds a source writes in tenths. -/
def tenths (lo mode hi : ℕ) : Bounds where
  lo := .ofDecimal false lo (-1)
  mode := .ofDecimal false mode (-1)
  hi := .ofDecimal false hi (-1)

def NAV_QUEUE_MS : Bounds := tenths 6 10 24
def NAV_TTFB_MS : Bounds := tenths 450 1100 2600
def NAV_BODY_MS : Bounds := tenths 3 9 20
def IPS_QUEUE_MS : Bounds := tenths 6 14 54
def IPS_TTFB_MS : Bounds := tenths 1600 2900 5300
def IPS_BODY_MS : Bounds := tenths 100 900 4200
def IPS_LEAD_MS : Bounds := tenths 0 8 35
def INLINE_MS : Bounds := tenths 8 16 40
def COMPILE_MS : Bounds := tenths 2 8 26
def BOOT_MS : Bounds := tenths 100 180 450
def SETUP_MS : Bounds := tenths 16 30 64
def COLLECT_MS : Bounds := tenths 2200 3200 9000
def LITE_COLLECT_MS : Bounds := tenths 1 2 5
def HANDOFF_MS : Bounds := tenths 280 360 500
def ASSEMBLE_MS : Bounds := tenths 880 1500 4700
def SETTLE_MS : Bounds := tenths 1 6 14
def SEAL_GAP_MS : Bounds := tenths 0 3 18
def ENCRYPT_MS : Bounds := tenths 26 42 66
def HEADER_BYTES : Bounds := tenths 2800 4200 7000

def RATIO : Bounds where
  lo := .ofDecimal false 48 (-2)
  mode := .ofDecimal false 51 (-2)
  hi := .ofDecimal false 53 (-2)

/-- A draw of `tri`. -/
structure Draw (b : Bounds) where
  ms : Double
  ge : b.lo.le ms = true
  le : ms.le b.hi = true

structure Transfer where
  encoded : Option ℕ
  decoded : ℕ
  headerBytes : Option ℕ

structure Fetch where
  startMs : Double
  ttfbMs : Double
  bodyMs : Double

structure Timeline where
  uptimeUs : ℕ
  nav : Vector ℕ 4
  ips : Vector ℕ 4
  kjm : ℕ
  rbp : ℕ
  jlm : ℕ
  qbq : ℕ
  uxn : ℕ
  rcj : ℕ
  settle : ℕ
  kkm : ℕ
  rqk : ℕ
  jbp : ℕ
  transfer : Double

/-- `f64::round`: halfway cases away from zero. -/
def roundAway : Double → Double
  | .fin a m => .fin a (Double.halfUp m Double.ONE * Double.ONE)
  | x => x

def ticks (ms : Double) : Option ℕ :=
  Checked.mul 64
    ((roundAway (((Double.fmax ms .zero).mul (.ofNat 1000)).div (.ofNat TICK_US))).toU 64) TICK_US

/-- What `build` draws. -/
structure BuildDraws where
  inline_ : Draw INLINE_MS
  compile : Draw COMPILE_MS
  boot : Draw BOOT_MS
  setup : Draw SETUP_MS
  collect : Draw COLLECT_MS
  handoff : Draw HANDOFF_MS
  settle : Draw SETTLE_MS
  assemble : Draw ASSEMBLE_MS
  sealGap : Draw SEAL_GAP_MS
  encrypt : Draw ENCRYPT_MS
  uptime : ℕ
  uptime_ge : UPTIME_US.1 ≤ uptime
  uptime_lt : uptime < UPTIME_US.2

def build (d : BuildDraws) (nav ips : Vector ℕ 4) (transfer : Double) : Option Timeline := do
  let kjm ← Checked.add 64 nav[3] (← ticks d.inline_.ms)
  let rbp ← Checked.add 64 (max ips[3] kjm) (← ticks d.compile.ms)
  let jlm ← Checked.add 64 rbp (← ticks d.boot.ms)
  let qbq ← Checked.add 64 jlm (← ticks d.setup.ms)
  let uxn ← Checked.add 64 qbq (← ticks d.collect.ms)
  let rcj ← Checked.add 64 uxn (← ticks d.handoff.ms)
  let settle ← Checked.add 64 rcj (← ticks d.settle.ms)
  let least ← Checked.add 64 (← Checked.sub settle rcj) TICK_US
  let kkm ← Checked.add 64 rcj (max (← ticks d.assemble.ms) least)
  let rqk ← Checked.add 64 kkm (← ticks d.sealGap.ms)
  let jbp ← Checked.add 64 rqk (← ticks d.encrypt.ms)
  return {
    uptimeUs := d.uptime / TICK_US * TICK_US
    nav, ips, kjm, rbp, jlm, qbq, uxn, rcj, settle, kkm, rqk, jbp, transfer }

/-- What `transfer` draws. -/
structure TransferDraws where
  ratio : Draw RATIO
  headers : Draw HEADER_BYTES

def transfer (d : TransferDraws) (size : Transfer) : Double :=
  let encoded := match size.encoded with
    | some n => Double.ofNat n
    | none => roundAway ((Double.ofNat size.decoded).mul d.ratio.ms)
  let headers := match size.headerBytes with
    | some n => Double.ofNat n
    | none => roundAway d.headers.ms
  encoded.add headers

/-- What `measured` draws. -/
structure MeasuredDraws where
  navQueue : Draw NAV_QUEUE_MS
  ipsQueue : Draw IPS_QUEUE_MS
  transfer : TransferDraws
  build : BuildDraws

def measured (d : MeasuredDraws) (nav ips : Fetch) (size : Transfer) : Option Timeline := do
  let navReq ← ticks d.navQueue.ms
  let navResp ← Checked.add 64 navReq (← ticks nav.ttfbMs)
  let navEnd ← Checked.add 64 navResp (max (← ticks nav.bodyMs) TICK_US)
  let ipsFetch := max (← ticks ips.startMs) navEnd
  let ipsReq ← Checked.add 64 ipsFetch (← ticks d.ipsQueue.ms)
  let ipsResp ← Checked.add 64 ipsReq (← ticks ips.ttfbMs)
  let ipsEnd ← Checked.add 64 ipsResp (max (← ticks ips.bodyMs) TICK_US)
  build d.build #v[0, navReq, navResp, navEnd] #v[ipsFetch, ipsReq, ipsResp, ipsEnd]
    (Timing.transfer d.transfer size)

/-- What `synthetic` draws. -/
structure SyntheticDraws where
  navQueue : Draw NAV_QUEUE_MS
  navTtfb : Draw NAV_TTFB_MS
  navBody : Draw NAV_BODY_MS
  ipsLead : Draw IPS_LEAD_MS
  ipsQueue : Draw IPS_QUEUE_MS
  ipsTtfb : Draw IPS_TTFB_MS
  ipsBody : Draw IPS_BODY_MS
  transfer : TransferDraws
  build : BuildDraws

def synthetic (d : SyntheticDraws) (size : Transfer) : Option Timeline := do
  let navReq ← ticks d.navQueue.ms
  let navResp ← Checked.add 64 navReq (← ticks d.navTtfb.ms)
  let navEnd ← Checked.add 64 navResp (max (← ticks d.navBody.ms) TICK_US)
  let ipsFetch := max (navEnd - (← ticks d.ipsLead.ms)) navResp
  let ipsReq ← Checked.add 64 ipsFetch (← ticks d.ipsQueue.ms)
  let ipsResp ← Checked.add 64 ipsReq (← ticks d.ipsTtfb.ms)
  let ipsEnd ← Checked.add 64 ipsResp (← ticks d.ipsBody.ms)
  build d.build #v[0, navReq, navResp, navEnd] #v[ipsFetch, ipsReq, ipsResp, ipsEnd]
    (Timing.transfer d.transfer size)

/-- `lite`: the timeline with a short collection. -/
def lite (t : Timeline) (d : Draw LITE_COLLECT_MS) : Option Timeline := do
  let uxn ← Checked.add 64 t.qbq (max (← ticks d.ms) TICK_US)
  let delta ← Checked.sub t.uxn uxn
  let rcj ← Checked.sub t.rcj delta
  let settle ← Checked.sub t.settle delta
  let kkm ← Checked.sub t.kkm delta
  let rqk ← Checked.sub t.rqk delta
  let jbp ← Checked.sub t.jbp delta
  return { t with uxn, rcj, settle, kkm, rqk, jbp }

/-- The time between two stamps, in milliseconds. -/
def Timeline.span (t : Timeline) (from_ to_ : ℕ) : Double :=
  ((Double.ofNat ((t.uptimeUs + to_) % 2 ^ 64)).div (.ofNat 1000)).sub
    ((Double.ofNat ((t.uptimeUs + from_) % 2 ^ 64)).div (.ofNat 1000))

/-! ## Fields and the order of the stamps -/

def MIN_COLLECT_FIELD : Double := .one

/-- The fields of the header: their numbers and their spans. -/
def Timeline.fields (t : Timeline) : List (ℕ × Double) :=
  [(0, (t.span t.kjm t.jbp).add (t.span t.nav[0] t.nav[3])),
    (1, t.span t.kjm t.rbp),
    (2, t.span t.rbp t.jlm),
    (3, t.span t.jlm t.qbq),
    (4, Double.fmax (t.span t.qbq t.uxn) MIN_COLLECT_FIELD),
    (5, t.span t.uxn t.rcj),
    (6, t.span t.rcj t.kkm),
    (7, t.span t.rqk t.jbp)] ++
  [(8, t.nav), (11, t.ips)].flatMap fun (base, s) =>
    [(base, t.span s[0] s[1]), (base + 1, t.span s[1] s[2]), (base + 2, t.span s[2] s[3])]

/-- The stamps of a timeline are in order, and the span of the script is positive. -/
structure Ordered (t : Timeline) : Prop where
  nav₁ : t.nav[0] ≤ t.nav[1]
  nav₂ : t.nav[1] ≤ t.nav[2]
  nav₃ : t.nav[2] ≤ t.nav[3]
  kjm : t.nav[3] ≤ t.kjm
  rbp : t.kjm ≤ t.rbp
  jlm : t.rbp ≤ t.jlm
  qbq : t.jlm ≤ t.qbq
  uxn : t.qbq ≤ t.uxn
  rcj : t.uxn ≤ t.rcj
  settle : t.rcj ≤ t.settle
  kkm : t.settle < t.kkm
  rqk : t.kkm ≤ t.rqk
  jbp : t.rqk ≤ t.jbp
  ips₁ : t.ips[0] ≤ t.ips[1]
  ips₂ : t.ips[1] ≤ t.ips[2]
  ips₃ : t.ips[2] ≤ t.ips[3]
  ips : t.ips[3] ≤ t.rbp
  span : (t.span t.ips[0] t.ips[3]).gt .zero = true

/-- The stamps of a page load that `build` starts from: in order, and far from the end of the
clock. -/
structure Loaded (nav ips : Vector ℕ 4) : Prop where
  nav₁ : nav[0] ≤ nav[1]
  nav₂ : nav[1] ≤ nav[2]
  nav₃ : nav[2] ≤ nav[3]
  ips₁ : ips[0] + 500 ≤ ips[1]
  ips₂ : ips[1] ≤ ips[2]
  ips₃ : ips[2] ≤ ips[3]
  nav_le : nav[3] ≤ 2 ^ 52 + 2 ^ 51
  ips_le : ips[3] ≤ 2 ^ 52 + 2 ^ 51

end Timing
end Lunar
