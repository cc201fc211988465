import PolarWG.Noise

/-!
# Cookies

The part of `wg_cookie.c` a session uses: the maker that puts MACs on its handshake messages and
takes in cookie replies, and the checker of incoming first MACs. A session never asks the checker
for the second MAC, so the checker's secret and the rate limiter are left out.
-/

namespace PolarWG

def cookieSecretMaxAge : ℤ := 120
def cookieSecretLatency : ℤ := 5

structure CookieMacs where
  mac1 : Bytes
  mac2 : Bytes

structure CookieMaker where
  cmMac1Key : Bytes
  cmCookieKey : Bytes
  cmCookie : Bytes
  cmCookieBirthdate : ℤ
  cmCookieValid : Bool
  cmMac1Last : Bytes
  cmMac1Sent : Bool

structure CookieChecker where
  ccMac1Key : Bytes

def CookieMaker.blank : CookieMaker := ⟨zeros 32, zeros 32, zeros 16, 0, false, zeros 16, false⟩

variable (p : Prims)

def precomputeKey (label : String) (input : Bytes) : Bytes := p.blake2s 32 [] (ascii label ++ input)

def cookieMakerInit (key : Bytes) : CookieMaker :=
  { CookieMaker.blank with
    cmMac1Key := precomputeKey p "mac1----" key, cmCookieKey := precomputeKey p "cookie--" key }

def cookieCheckerUpdate (key : Bytes) : CookieChecker := ⟨precomputeKey p "mac1----" key⟩

def cookieMakerMac (cm : CookieMaker) (buf : Bytes) (now : Moment) : CookieMaker × CookieMacs :=
  let mac1 := p.blake2s 16 cm.cmMac1Key buf
  let cm := { cm with cmMac1Last := mac1, cmMac1Sent := true }
  if cm.cmCookieValid ∧ ¬ noiseTimerExpired now.getsbinuptime cm.cmCookieBirthdate
      (cookieSecretMaxAge - cookieSecretLatency) 0 then
    (cm, ⟨mac1, p.blake2s 16 cm.cmCookie (buf ++ mac1)⟩)
  else ({ cm with cmCookieValid := false }, ⟨mac1, zeros 16⟩)

/-- Whether it took the cookie. -/
def cookieMakerConsumePayload (cm : CookieMaker) (nonce ecookie : Bytes) (now : Moment) :
    CookieMaker × Bool :=
  if ¬ cm.cmMac1Sent then (cm, false)
  else match p.xchacha20poly1305Decrypt cm.cmCookieKey nonce cm.cmMac1Last ecookie with
  | none => (cm, false)
  | some cookie => ({ cm with
      cmCookie := cookie, cmCookieBirthdate := now.getsbinuptime, cmCookieValid := true,
      cmMac1Sent := false }, true)

/-- With `check_cookie` false: whether the first MAC is right. -/
def cookieCheckerValidateMacs (cc : CookieChecker) (macs : CookieMacs) (buf : Bytes) : Bool :=
  p.blake2s 16 cc.ccMac1Key buf = macs.mac1

end PolarWG
