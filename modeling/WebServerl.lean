import WebServerl.Erlang.Listing
import WebServerl.Interference
import WebServerl.Lib.KeyedHistory
import WebServerl.Lib.Machine
import WebServerl.Lib.Program
import WebServerl.Node
import WebServerl.Persistence
import WebServerl.Site.Alone
import WebServerl.Site.Authentication
import WebServerl.Site.Buttons
import WebServerl.Site.Comments
import WebServerl.Site.Contract
import WebServerl.Site.Deletes
import WebServerl.Site.Lifetime
import WebServerl.Site.Messages
import WebServerl.Site.Privacy
import WebServerl.Site.Recovery
import WebServerl.Site.Registration
import WebServerl.Site.Requests
import WebServerl.Site.Rows
import WebServerl.Site.Seeding
import WebServerl.Site.StaleButtons
import WebServerl.Site.Submissions
import WebServerl.Site.Uses
import WebServerl.Site.Views
import WebServerl.Store.Accounts
import WebServerl.Store.CommentIds
import WebServerl.Store.MessageRemoval
import WebServerl.Store.Outcomes
import WebServerl.Store.SavedComments
import WebServerl.Store.SavedMessages
import WebServerl.Store.VisitorHistory
import WebServerl.Erlang.Lists
import WebServerl.Erlang.TermOrder
import WebServerl.Site.Released
import WebServerl.Lib.Calls
import WebServerl.Lib.CallRefinement
import WebServerl.Site.Mail
import WebServerl.Site.MailRefinement
import WebServerl.Site.Postbacks
import WebServerl.Site.Answered
import WebServerl.Erlang.Transactions
import WebServerl.Erlang.Serial
import WebServerl.Site.Boot
import WebServerl.Site.BootRefinement
import WebServerl.HandlingRefinement
