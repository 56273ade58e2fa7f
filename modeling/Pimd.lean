import Pimd.PassCount
import Pimd.AssertStore
import Pimd.AssertLan
import Pimd.NbrTable
import Pimd.IgmpRuns
import Pimd.IgmpParse
import Pimd.BsrOrder
import Pimd.RpRegiven
import Pimd.CrpAdv
import Pimd.Limits
import Pimd.Cksum
import Pimd.Anycast
import Pimd.RpWithdraw
import Pimd.RpExpiry
import Pimd.ExpiryLaw
import Pimd.Olist
import Pimd.JpSmallest
import Pimd.Upstream
import Pimd.StaticWins
import Pimd.RouteUndo
import Pimd.Text
import Pimd.TimerService
import Pimd.TimerAge
import Pimd.VifDirect
